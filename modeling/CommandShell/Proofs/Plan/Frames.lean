import CommandShell.Proofs.Files.Put
import CommandShell.Proofs.Plan.Effects
import CommandShell.Proofs.Plan.Outcomes

/-!
# What a plan leaves alone

A plan writes to the files of its output redirects and to no others. Their places are known before
it is built, because building creates no directory and does not change the working directory.
Nothing is ever removed, and only `cd` goes elsewhere: to some of the directories that the plan
names, in order. All this holds however far the plan gets, and whatever its streams are like.
-/

namespace CommandShell

open List

/-! ## Worlds -/

/-- What has become of a world in which files were written at some places: there are the same
directories, all files are still there, and those at other places are the same as before. -/
structure World.Frames (places : List Location) (w w' : World) : Prop where
  dirs : ∀ place, w'.root.HasDir place ↔ w.root.HasDir place
  remain : ∀ place content, w.root.get? place = some (.file content) →
    ∃ content', w'.root.get? place = some (.file content')
  others : ∀ place, place ∉ places → ∀ content,
    w'.root.get? place = some (.file content) ↔ w.root.get? place = some (.file content)
  faults : w'.faults = w.faults

variable {w w' : World}

namespace World

variable {place : Location} {path : Text}

namespace Frames

variable {places places' : List Location} {w w' w'' : World}

theorem of_root (hroot : w'.root = w.root) (hfaults : w'.faults = w.faults) :
    w.Frames places w' where
  dirs place := by rw [hroot]
  remain place content h := ⟨content, by rw [hroot, h]⟩
  others place _ content := by rw [hroot]
  faults := hfaults

theorem refl (places : List Location) (w : World) : w.Frames places w := of_root rfl rfl

theorem mono (h : w.Frames places w') (hsub : places ⊆ places') : w.Frames places' w' where
  dirs := h.dirs
  remain := h.remain
  others place hplace := h.others place fun hmem => hplace (hsub hmem)
  faults := h.faults

theorem trans (h : w.Frames places w') (h' : w'.Frames places w'') : w.Frames places w'' where
  dirs place := (h'.dirs place).trans (h.dirs place)
  remain place content hget := by
    obtain ⟨content', hget'⟩ := h.remain place content hget
    exact h'.remain place content' hget'
  others place hplace content :=
    (h'.others place hplace content).trans (h.others place hplace content)
  faults := h'.faults.trans h.faults

theorem append (h : w.Frames places w') (h' : w'.Frames places' w'') :
    w.Frames (places ++ places') w'' :=
  (h.mono (subset_append_left _ _)).trans (h'.mono (subset_append_right _ _))

theorem withFile (h : ¬ w.root.HasDir place) (content : ByteArray) :
    w.Frames [place] (w.withFile place content) := by
  have hplace : ∀ entries, w.root.get? place ≠ some (.dir entries) :=
    fun entries hget => h ⟨entries, hget⟩
  refine ⟨fun other => ⟨fun ⟨entries, hget⟩ => Node.get?_of_put hget, ?_⟩, ?_, ?_, rfl⟩
  · rintro ⟨entries, hget⟩
    obtain ⟨node, hnode, hdir, -⟩ := Node.get?_put_of_get? content hplace hget
    cases node with
    | file _ => cases hdir
    | dir entries' => exact ⟨entries', hnode⟩
  · intro other old hget
    obtain ⟨node, hnode, hdir, -⟩ := Node.get?_put_of_get? content hplace hget
    cases node with
    | file content' => exact ⟨content', hnode⟩
    | dir _ => cases hdir
  · intro other hother old
    have hne : other ≠ place := ne_of_not_mem_cons hother
    constructor
    · intro hget
      rcases Node.get?_put hget with ⟨heq, -⟩ | ⟨-, hdir⟩ | hold
      · exact absurd heq hne
      · cases hdir
      · exact hold
    · intro hget
      obtain ⟨node, hnode, -, hsame⟩ := Node.get?_put_of_get? content hplace hget
      rw [← hsame hne rfl]
      exact hnode

end Frames

theorem target?_eq_some :
    w.target? path = some place ↔ Path.resolveNew w.root w.cwd path = .ok place := by
  unfold target?
  cases Path.resolveNew w.root w.cwd path <;> simp [Except.toOption]

theorem target?_of_dirs (hcwd : w'.cwd = w.cwd)
    (hdirs : ∀ place, w'.root.HasDir place ↔ w.root.HasDir place) (path : Text) :
    w'.target? path = w.target? path := by
  apply Option.ext
  intro place
  rw [target?_eq_some, target?_eq_some, hcwd]
  exact ⟨Path.resolveNew_of_dirs fun place => (hdirs place).1,
    Path.resolveNew_of_dirs fun place => (hdirs place).2⟩

theorem LeadsTo.of_dirs (hcwd : w'.cwd = w.cwd)
    (hdirs : ∀ place, w'.root.HasDir place → w.root.HasDir place) (h : w'.LeadsTo path place) :
    w.LeadsTo path place := by
  obtain ⟨hnul, entries, hfind⟩ := h
  obtain ⟨hresolve, hget⟩ := find_eq_ok.1 hfind
  rw [hcwd] at hresolve
  obtain ⟨entries', hget'⟩ := hdirs place ⟨entries, hget⟩
  exact ⟨hnul, entries',
    find_eq_ok.2 ⟨Path.resolve_of_dirs hdirs hresolve ⟨entries, hget⟩, hget'⟩⟩

theorem isDir_of_dirs (hcwd : w'.cwd = w.cwd)
    (hdirs : ∀ place, w'.root.HasDir place ↔ w.root.HasDir place) (path : Text) :
    w'.isDir path = w.isDir path := by
  rw [Bool.eq_iff_iff, isDir_iff, isDir_iff]
  exact exists_congr fun place => ⟨.of_dirs hcwd fun place => (hdirs place).1,
    .of_dirs hcwd.symm fun place => (hdirs place).2⟩

/-! ### Going elsewhere -/

section Straying

variable {w w' w'' v : World} {paths paths' : List Text}

theorem foldlM_enter_cons : (path :: paths).foldlM enter w = .ok v ↔
    ∃ next, w.enter path = .ok next ∧ paths.foldlM enter next = .ok v := by
  rw [foldlM_cons]
  cases w.enter path <;> simp [bind, Except.bind]

theorem root_of_foldlM_enter (h : paths.foldlM enter w = .ok v) :
    v.root = w.root ∧ v.faults = w.faults := by
  induction paths generalizing w with
  | nil =>
    cases h
    exact ⟨rfl, rfl⟩
  | cons path paths ih =>
    obtain ⟨next, henter, hrest⟩ := foldlM_enter_cons.1 h
    obtain ⟨-, place, -, rfl⟩ := enter_eq_ok.1 henter
    have hsame := ih hrest
    exact hsame

theorem foldlM_enter_of_dirs (hcwd : w'.cwd = w.cwd) (hfaults : w'.faults = w.faults)
    (hdirs : ∀ place, w'.root.HasDir place ↔ w.root.HasDir place)
    (h : paths.foldlM enter w' = .ok w'') :
    ∃ v, paths.foldlM enter w = .ok v ∧ w''.cwd = v.cwd := by
  induction paths generalizing w w' with
  | nil =>
    cases h
    exact ⟨w, rfl, hcwd⟩
  | cons path paths ih =>
    obtain ⟨next, henter, hrest⟩ := foldlM_enter_cons.1 h
    obtain ⟨hfault, place, hplace, rfl⟩ := enter_eq_ok.1 henter
    have hsame : w.enter path = .ok { w with cwd := place } := by
      refine enter_eq_ok.2 ⟨?_, place, hplace.of_dirs hcwd fun place => (hdirs place).1, rfl⟩
      rw [fault?, ← hfaults]
      exact hfault
    obtain ⟨v, hv, hsame'⟩ :=
      @ih { w with cwd := place } { w' with cwd := place } rfl hfaults hdirs hrest
    exact ⟨v, foldlM_enter_cons.2 ⟨_, hsame, hv⟩, hsame'⟩

/-- That the working directory of a world is reached from that of another by entering some of the
directories in a list, in order. -/
def Strays (paths : List Text) (w w' : World) : Prop :=
  ∃ (taken : List Text) (v : World),
    taken.Sublist paths ∧ taken.foldlM enter w = .ok v ∧ w'.cwd = v.cwd

theorem Strays.of_cwd (h : w'.cwd = w.cwd) : w.Strays paths w' :=
  ⟨[], w, nil_sublist _, rfl, h⟩

theorem Strays.of_enter (h : w.enter path = .ok w') : w.Strays [path] w' :=
  ⟨[path], w', .refl _, foldlM_enter_cons.2 ⟨w', h, rfl⟩, rfl⟩

theorem Strays.cwd_eq (h : w.Strays [] w') : w'.cwd = w.cwd := by
  obtain ⟨taken, v, hsub, hv, hcwd⟩ := h
  obtain rfl := sublist_nil.1 hsub
  cases hv
  exact hcwd

theorem Strays.mono (h : w.Strays paths w') (hsub : paths.Sublist paths') :
    w.Strays paths' w' := by
  obtain ⟨taken, v, htaken, hv⟩ := h
  exact ⟨taken, v, htaken.trans hsub, hv⟩

/-- Directories that are entered after others, when files have been written meanwhile. -/
theorem exists_enter_append {places : List Location} (h : paths.foldlM enter w = .ok v)
    (hcwd : w'.cwd = v.cwd) (hframes : w.Frames places w')
    (h' : paths'.foldlM enter w' = .ok w'') :
    ∃ u, (paths ++ paths').foldlM enter w = .ok u ∧ w''.cwd = u.cwd ∧
      ∀ place, w''.root.HasDir place ↔ u.root.HasDir place := by
  obtain ⟨hroot, hfaults⟩ := root_of_foldlM_enter h
  obtain ⟨hroot', -⟩ := root_of_foldlM_enter h'
  obtain ⟨u, hu, hsame⟩ := foldlM_enter_of_dirs hcwd (hframes.faults.trans hfaults.symm)
    (by rw [hroot]; exact hframes.dirs) h'
  refine ⟨u, ?_, hsame, ?_⟩
  · rw [foldlM_append, h]
    exact hu
  · rw [(root_of_foldlM_enter hu).1, hroot, hroot']
    exact hframes.dirs

theorem Strays.append {places : List Location} (h : w.Strays paths w')
    (hframes : w.Frames places w') (h' : w'.Strays paths' w'') :
    w.Strays (paths ++ paths') w'' := by
  obtain ⟨taken, v, hsub, hv, hcwd⟩ := h
  obtain ⟨taken', v', hsub', hv', hcwd'⟩ := h'
  obtain ⟨u, hu, hsame, -⟩ := exists_enter_append hv hcwd hframes hv'
  exact ⟨taken ++ taken', u, hsub.append hsub', hu, hcwd'.trans hsame⟩

end Straying

end World

/-! ## Jobs -/

@[simp] theorem Sink.place_close (file : Sink) (w : World) :
    (file.close w).1.place = file.place := by
  unfold close
  split_ifs <;> rfl

@[simp] theorem Sink.cwd_close (file : Sink) (w : World) : (file.close w).2.cwd = w.cwd := by
  unfold close
  split_ifs <;> rfl

theorem Sink.frames_close {file : Sink} (h : ¬ w.root.HasDir file.place) :
    w.Frames [file.place] (file.close w).2 := by
  unfold close
  split_ifs
  · exact .refl _ w
  · exact .withFile h _

namespace Job

def destinations : Job → List Text
  | command (.cd c) => [c.path]
  | command _ => []
  | redirect _ _ _ _ child => child.destinations
  | tolerant child => child.destinations
  | pipe left right _ => left.destinations ++ right.destinations
  | seq left right _ => left.destinations ++ right.destinations
  | forward _ _ => []

/-- What a job has done when it has become another one: it has written to its own files only,
which are still those of the other one, and has gone to no directories but these. -/
structure Spares (job : Job) (paths : List Text) (w : World) (job' : Job) (w' : World) : Prop where
  frames : w.Frames job.sinks w'
  sinks : job'.sinks = job.sinks
  strays : w.Strays paths w'

/-- A world in which the files of a job can be written. -/
def Writable (job : Job) (w : World) : Prop := ∀ place ∈ job.sinks, ¬ w.root.HasDir place

section Spares

variable {job job' left left' right right' : Job} {paths paths' : List Text} {w w' w'' : World}

theorem Spares.of_eq (hworld : w' = w) (hsinks : job'.sinks = job.sinks) :
    job.Spares paths w job' w' := by
  subst hworld
  exact ⟨.refl _ _, hsinks, .of_cwd rfl⟩

theorem Spares.append (hleft : left.Spares paths w left' w')
    (hright : right.Spares paths' w' right' w'') (hsinks : job.sinks = left.sinks ++ right.sinks)
    (hsinks' : job'.sinks = left'.sinks ++ right'.sinks) :
    job.Spares (paths ++ paths') w job' w'' := by
  refine ⟨?_, ?_, hleft.strays.append hleft.frames hright.strays⟩
  · rw [hsinks]
    exact hleft.frames.append hright.frames
  · rw [hsinks, hsinks', hleft.sinks, hright.sinks]

theorem Writable.of_frames {moved : Job} (h : moved.Writable w) {places : List Location}
    (hframes : w.Frames places w') (hsinks : job.sinks ⊆ moved.sinks) : job.Writable w' :=
  fun place hplace hdir => h place (hsinks hplace) ((hframes.dirs place).1 hdir)

theorem Spares.writable (h : job.Spares paths w job' w') (hjob : job.Writable w) :
    job'.Writable w' :=
  hjob.of_frames h.frames (by rw [h.sinks]; exact List.Subset.refl _)

end Spares

@[simp] private theorem world_closeBoth (scene : Scene) :
    (closeBoth scene).2.world = scene.world := by
  unfold closeBoth
  split <;> rfl

@[simp] private theorem world_closeSource (source : Option Source) (scene : Scene) :
    (closeSource source scene).2.2.world = scene.world := by
  cases source <;> rfl

theorem spares_close {job : Job} (h : job.Writable w) (input output : Stream) :
    job.Spares [] w (job.close ⟨w, input, output⟩).job
      (job.close ⟨w, input, output⟩).scene.world := by
  induction job generalizing w input output with
  | command invocation => exact .of_eq (world_closeBoth _) rfl
  | redirect source sink inner outer child ih =>
    have hsource := world_closeSource source ⟨w, input, output⟩
    unfold close
    rcases hclose : closeSource source ⟨w, input, output⟩ with ⟨failure | _, source', scene⟩ <;>
      rw [hclose] at hsource <;> dsimp only at hsource ⊢
    · exact .of_eq hsource rfl
    · cases sink with
      | none => exact .of_eq hsource rfl
      | some file =>
        subst hsource
        have hplace : ¬ scene.world.root.HasDir file.place := h _ mem_cons_self
        refine ⟨(Sink.frames_close hplace).mono (subset_append_left _ child.sinks), ?_,
          .of_cwd (file.cwd_close scene.world)⟩
        exact congrArg (· :: child.sinks) (file.place_close scene.world)
  | tolerant child ih =>
    obtain ⟨hframes, hsinks, hstrays⟩ := ih h input output
    unfold close
    dsimp only
    split <;> exact ⟨hframes, hsinks, hstrays⟩
  | pipe left right middle ihl ihr =>
    have hleft := ihl (h.of_frames (.refl [] w) (subset_append_left _ _)) input middle
    have hright := ihr (h.of_frames hleft.frames (subset_append_right _ _))
    unfold close
    dsimp only
    split
    · exact hleft.append (.of_eq rfl rfl) rfl rfl
    · exact hleft.append (hright _ _) rfl rfl
  | seq left right inner ihl ihr =>
    have hleft := ihl (h.of_frames (.refl [] w) (subset_append_left _ _)) input output
    have hright := ihr (h.of_frames hleft.frames (subset_append_right _ _))
    unfold close
    dsimp only
    split
    · exact hleft.append (.of_eq rfl rfl) rfl rfl
    · exact hleft.append (hright _ _) rfl rfl
  | forward text status => exact .of_eq rfl rfl

@[simp] theorem world_fill (source : Option Source) (input : Stream) (scene : Scene) :
    (fill source input scene).2.2.world = scene.world := by
  unfold fill
  split
  · rfl
  · rfl
  · cases source with
    | some file => rfl
    | none =>
      unfold readSource
      dsimp only
      split <;> rfl

private theorem writeSink_ok {text : Text} {sink sink' : Option Sink} {scene scene' : Scene}
    (h : writeSink text sink scene = .ok (sink', scene')) :
    scene'.world = scene.world ∧ sink'.map (·.place) = sink.map (·.place) := by
  unfold writeSink at h
  cases sink with
  | some file =>
    cases h
    exact ⟨rfl, rfl⟩
  | none =>
    cases hwrite : scene.output.write text <;> simp only [hwrite, bind, Except.bind] at h <;>
      cases h
    exact ⟨rfl, rfl⟩

private theorem drain_ok {output output' : Stream} {position : Nat} {sink sink' : Option Sink}
    {scene scene' : Scene} (h : drain output position sink scene = .ok (output', sink', scene')) :
    scene'.world = scene.world ∧ sink'.map (·.place) = sink.map (·.place) := by
  unfold drain at h
  cases hseek : output.seek position <;> simp only [hseek, bind, Except.bind] at h
  · cases h
  next moved =>
  cases hmore : moved.hasNoMore <;> simp only [hmore] at h
  · cases h
  next exhausted =>
  split_ifs at h
  · cases h
    exact ⟨rfl, rfl⟩
  cases hread : moved.read <;> simp only [hread] at h
  · cases h
  next read =>
  cases hwrite : writeSink read.1 sink scene <;> simp only [hwrite] at h <;> cases h
  exact writeSink_ok hwrite

private theorem passOn_eq (inner : Outcome Int) (position : Nat) (sink : Option Sink)
    (scene : Scene) : (passOn inner position sink scene).2.2.2.world = scene.world ∧
      (passOn inner position sink scene).2.2.1.map (·.place) = sink.map (·.place) := by
  unfold passOn
  split
  · exact ⟨rfl, rfl⟩
  · split
    · exact ⟨rfl, rfl⟩
    · next h => exact drain_ok h

/-- A command leaves the files alone, and goes elsewhere only if it is `cd`. -/
theorem spares_run_command (invocation : Invocation) (scene : Scene) (job' : Job)
    (hsinks : job'.sinks = []) : (command invocation).Spares (command invocation).destinations
      scene.world job' (invocation.run.on scene).2.world := by
  cases hmoves : invocation.moves with
  | false =>
    obtain ⟨hworld, -⟩ := Invocation.modest_run hmoves scene
    exact .of_eq hworld hsinks
  | true =>
    cases invocation with
    | cd c =>
      change (command (.cd c)).Spares [c.path] scene.world job' (c.run.on scene).2.world
      rw [Cd.on_run]
      split
      · next henter =>
          refine ⟨?_, hsinks, .of_enter henter⟩
          obtain ⟨-, place, -, rfl⟩ := World.enter_eq_ok.1 henter
          exact .of_root rfl rfl
      · exact .of_eq rfl hsinks
    | _ => cases hmoves

/-- A redirect closes its child, so the files in it are written by then. -/
theorem spares_finish {child : Job} {paths : List Text} {inner : Outcome Int}
    (hinner : child.Spares paths w inner.job inner.scene.world) (hchild : child.Writable w)
    (source : Option Source) (sink : Option Sink) (position : Nat) (scene : Scene)
    (source' : Option Source) (input output : Stream) :
    (redirect source' sink input output child).Spares paths w
      (finish source sink position scene inner).job
      (finish source sink position scene inner).scene.world := by
  obtain ⟨hworld, hsink⟩ := passOn_eq inner position sink { scene with world := inner.scene.world }
  unfold finish
  dsimp only
  rcases hpass : passOn inner position sink { scene with world := inner.scene.world } with
    ⟨result, outer, sink', scene'⟩
  rw [hpass] at hworld hsink
  dsimp only at hworld hsink ⊢
  rw [hworld]
  have hclosed := spares_close (hinner.writable hchild) inner.scene.input outer
  have hstrays := hinner.strays.append hinner.frames hclosed.strays
  rw [append_nil] at hstrays
  refine ⟨?_, ?_, hstrays⟩
  · refine (hinner.frames.trans ?_).mono (subset_append_right _ _)
    rw [← hinner.sinks]
    exact hclosed.frames
  · rw [sinks, sinks, hsink, hclosed.sinks, hinner.sinks]

/-- A job writes to its files while it runs, where they stand inside redirects. -/
theorem spares_run {job : Job} (h : job.Writable w) (input output : Stream) :
    job.Spares job.destinations w (job.run ⟨w, input, output⟩).job
      (job.run ⟨w, input, output⟩).scene.world := by
  induction job generalizing w input output with
  | command invocation => exact spares_run_command invocation ⟨w, input, output⟩ _ rfl
  | redirect source sink inner outer child ih =>
    have hfill := world_fill source inner ⟨w, input, output⟩
    unfold run
    split_ifs
    · exact .of_eq rfl rfl
    · rcases hfilled : fill source inner ⟨w, input, output⟩ with ⟨filled, source', scene⟩
      rw [hfilled] at hfill
      dsimp only at hfill ⊢
      subst hfill
      have hchild : child.Writable scene.world :=
        h.of_frames (.refl [] _) (subset_append_right _ _)
      split
      · exact .of_eq rfl rfl
      · exact .of_eq rfl rfl
      · exact spares_finish (ih hchild _ outer) hchild source' sink _ scene source inner outer
  | tolerant child ih =>
    obtain ⟨hframes, hsinks, hstrays⟩ := ih h input output
    unfold run
    dsimp only
    split
    · split <;> exact ⟨hframes, hsinks, hstrays⟩
    · exact ⟨hframes, hsinks, hstrays⟩
  | pipe left right middle ihl ihr =>
    have hleft := ihl (h.of_frames (.refl [] w) (subset_append_left _ _)) input middle
    have hright := ihr (h.of_frames hleft.frames (subset_append_right _ _))
    unfold run
    dsimp only
    split
    · exact hleft.append (.of_eq rfl rfl) rfl rfl
    · exact hleft.append (.of_eq rfl rfl) rfl rfl
    · exact hleft.append (hright _ _) rfl rfl
  | seq left right inner ihl ihr =>
    have hleft := ihl (h.of_frames (.refl [] w) (subset_append_left _ _)) input output
    have hright := ihr (h.of_frames hleft.frames (subset_append_right _ _))
    unfold run
    dsimp only
    split
    · exact hleft.append (.of_eq rfl rfl) rfl rfl
    · exact hleft.append (hright _ _) rfl rfl
  | forward text status =>
    unfold run
    dsimp only
    split <;> exact .of_eq rfl rfl

end Job

/-! ## Assembly -/

def Simple.destinations (simple : Simple Utility) : List Text :=
  if simple.moves then simple.operands else []

def Plan.destinations (plan : Plan Utility) : List Text :=
  plan.commands.flatMap Simple.destinations

theorem Plan.destinations_of_not_moves {plan : Plan Utility} (h : plan.moves = false) :
    plan.destinations = [] := by
  unfold destinations
  induction plan with
  | simple command =>
    rw [commands, flatMap_singleton, Simple.destinations]
    exact if_neg (Bool.eq_false_iff.1 h)
  | tolerant child ih => exact ih h
  | pipe left right ihl ihr | seq left right ihl ihr =>
    obtain ⟨hl, hr⟩ := Bool.or_eq_false_iff.1 h
    rw [commands, flatMap_append, ihl hl, ihr hr, append_nil]
  | forward text status => rfl

def Job.Opened : Job → Prop
  | command _ => True
  | redirect source sink _ _ child =>
    (∀ file ∈ source, file.closed = false) ∧ (∀ file ∈ sink, file.closed = false) ∧ child.Opened
  | tolerant child => child.Opened
  | pipe left right _ => left.Opened ∧ right.Opened
  | seq left right _ => left.Opened ∧ right.Opened
  | forward _ _ => True

/-- A job as it is made in a world: its files are open and can be written to, and it is to change
to what are directories so far. -/
structure Job.Laid (job : Job) (targets : List Location) (paths : List Text) (w : World) :
    Prop where
  sinks : job.sinks ⊆ targets
  writable : job.Writable w
  opened : job.Opened
  destinations : job.destinations.Sublist paths
  enterable : ∀ path ∈ job.destinations, w.isDir path = true

/-- What has been done by a step that makes a job: files were emptied or created where the job may
be to write. -/
structure Shell.Lays (targets : List Location) (paths : List Text) (w : World)
    (outcome : Except Failure Job × World) : Prop where
  frames : w.Frames targets outcome.2
  cwd : outcome.2.cwd = w.cwd
  job : ∀ job, outcome.1 = .ok job → job.Laid targets paths w

namespace Shell

variable {targets targets' : List Location} {paths : List Text} {w : World}

theorem Lays.of_failure {w' : World} {failure : Failure} (hframes : w.Frames targets w')
    (hcwd : w'.cwd = w.cwd) : Lays targets paths w (.error failure, w') := ⟨hframes, hcwd, nofun⟩

theorem Lays.of_error {failure : Failure} : Lays targets paths w (.error failure, w) :=
  .of_failure (.refl _ w) rfl

theorem lays_connect {κ : Type} (plan : Plan κ) (ports : Ports) {step : Shell Job}
    (h : Lays targets paths w (step.on w)) :
    Lays targets paths w ((plan.connect ports >>= fun _ => step).on w) := by
  have hconnect : plan.connect ports = pure () ∨
      plan.connect ports = complain .missingArgument := by
    unfold Plan.connect
    cases plan <;> dsimp only <;> try exact .inl rfl
    all_goals
      split_ifs
      · exact .inl rfl
      · exact .inr rfl
  rcases hconnect with hconnect | hconnect <;> rw [hconnect]
  · exact h
  · exact .of_error

theorem lays_pair {left right : Shell Job} {ltargets rtargets : World → List Location}
    {lpaths rpaths : List Text} {join : Job → Job → Job}
    (hleft : ∀ w, Lays (ltargets w) lpaths w (left.on w))
    (hright : ∀ w, Lays (rtargets w) rpaths w (right.on w))
    (hsame : ∀ w w', w'.cwd = w.cwd →
      (∀ place, w'.root.HasDir place ↔ w.root.HasDir place) → rtargets w' = rtargets w)
    (hsinks : ∀ first second, (join first second).sinks = first.sinks ++ second.sinks)
    (hopened : ∀ first second, first.Opened → second.Opened → (join first second).Opened)
    (hpaths : ∀ first second,
      (join first second).destinations = first.destinations ++ second.destinations)
    (w : World) :
    Lays (ltargets w ++ rtargets w) (lpaths ++ rpaths) w
      (Shell.on (do return join (← left) (← right)) w) := by
  have hl := hleft w
  rw [on_bind]
  rcases hfirst : left.on w with ⟨failure | first, w'⟩ <;> rw [hfirst] at hl
  · exact ⟨hl.frames.mono (subset_append_left _ _), hl.cwd, nofun⟩
  have hr := hright w'
  rw [hsame w w' hl.cwd hl.frames.dirs] at hr
  dsimp only
  rw [on_bind]
  rcases hsecond : right.on w' with ⟨failure | second, w''⟩ <;> rw [hsecond] at hr
  · exact ⟨hl.frames.append hr.frames, hr.cwd.trans hl.cwd, nofun⟩
  refine ⟨hl.frames.append hr.frames, hr.cwd.trans hl.cwd, ?_⟩
  rintro _ ⟨⟩
  have hl' := hl.job first rfl
  have hr' := hr.job second rfl
  refine ⟨?_, fun place hplace => ?_, hopened _ _ hl'.opened hr'.opened, ?_, fun path hpath => ?_⟩
  · rw [hsinks]
    exact append_subset.2 ⟨subset_append_of_subset_left _ hl'.sinks,
      subset_append_of_subset_right _ hr'.sinks⟩
  · rw [hsinks] at hplace
    rcases mem_append.1 hplace with hplace | hplace
    · exact hl'.writable place hplace
    · rw [← hl.frames.dirs]
      exact hr'.writable place hplace
  · rw [hpaths]
    exact hl'.destinations.append hr'.destinations
  · rw [hpaths] at hpath
    rcases mem_append.1 hpath with hpath | hpath
    · exact hl'.enterable path hpath
    · rw [← World.isDir_of_dirs hl.cwd hl.frames.dirs]
      exact hr'.enterable path hpath

end Shell

open Shell

theorem Sink.frames_open? (path? : Option Text) (w : World) :
    w.Frames (path?.toList.filterMap w.target?) ((Sink.open? path?).on w).2 ∧
      ((Sink.open? path?).on w).2.cwd = w.cwd ∧
      ∀ sink, ((Sink.open? path?).on w).1 = .ok sink → ∀ file ∈ sink,
        (file.place ∈ path?.toList.filterMap w.target? ∧ ¬ w.root.HasDir file.place) ∧
          file.closed = false := by
  cases path? with
  | none =>
    refine ⟨.refl _ w, rfl, ?_⟩
    rintro _ ⟨⟩ _ ⟨⟩
  | some path =>
    unfold Sink.open?
    dsimp only
    rw [on_bind, on_get]
    dsimp only
    rw [on_bind, on_ofCall]
    rcases hopen : w.openToWrite path with failure | ⟨place, w'⟩
    · exact ⟨.refl _ w, rfl, nofun⟩
    · have htakes := World.takes_of_openToWrite hopen
      obtain ⟨-, hresolve, rfl⟩ := World.openToWrite_eq_ok hopen
      have hplace : ¬ w.root.HasDir place := fun ⟨entries, hdir⟩ => htakes.not_dir entries hdir
      have hnamed : (some path).toList.filterMap w.target? = [place] := by
        simp [World.target?_eq_some.2 hresolve]
      rw [hnamed]
      refine ⟨World.Frames.withFile hplace .empty, rfl, ?_⟩
      rintro _ ⟨⟩ _ ⟨⟩
      exact ⟨⟨mem_cons_self, hplace⟩, rfl⟩

theorem Plan.targets_of_dirs {κ : Type} (plan : Plan κ) (hcwd : w'.cwd = w.cwd)
    (hdirs : ∀ place, w'.root.HasDir place ↔ w.root.HasDir place) :
    plan.targets w' = plan.targets w := by
  have htarget : w'.target? = w.target? := funext (World.target?_of_dirs hcwd hdirs)
  rw [targets, targets, htarget]

theorem Cd.of_check {flags : List Flag} {operands : List Text} {cd : Cd}
    (h : Cd.check w ⟨some flags, some operands, true⟩ = .ok cd) :
    operands = [cd.path] ∧ w.isDir cd.path = true := by
  rcases operands with _ | ⟨path, _ | ⟨_, _⟩⟩
  · cases h
  · rw [check_singleton] at h
    split_ifs at h with hhas hdir
    cases h
    exact ⟨rfl, by simpa using hdir⟩
  · cases h

private theorem Job.laid_command {utility : Utility} {flags : List Flag} {operands : List Text}
    {invocation : Invocation}
    (h : Invocation.check utility ⟨some flags, some operands, true⟩ w = .ok invocation) :
    (Job.command invocation).Laid [] (Simple.command utility flags operands).destinations w := by
  cases hmoves : invocation.moves with
  | false =>
    have hpaths : (Job.command invocation).destinations = [] := by
      cases invocation <;> first | rfl | cases hmoves
    refine ⟨List.Subset.refl _, nofun, trivial, ?_, ?_⟩ <;> rw [hpaths]
    · exact nil_sublist _
    · exact nofun
  | true =>
    cases invocation with
    | cd c =>
      have hutility : utility = .cd := by
        simpa [hmoves] using (Invocation.moves_of_check h).symm
      subst hutility
      obtain ⟨_, hcheck, ⟨⟩⟩ := Checked.map_eq_ok.1 h
      obtain ⟨rfl, hdir⟩ := Cd.of_check hcheck
      refine ⟨List.Subset.refl _, nofun, trivial, .refl _, fun path hpath => ?_⟩
      rw [mem_singleton.1 hpath]
      exact hdir
    | _ => cases hmoves

private theorem Source.opened_of_open? {path? : Option Text} {source : Option Source}
    (h : (Source.open? path?).on w = (.ok source, w')) : ∀ file ∈ source, file.closed = false := by
  cases path? with
  | none =>
    cases h
    exact nofun
  | some path =>
    obtain ⟨w₁, w₂, -, h⟩ := on_bind_eq_ok.1 h
    obtain ⟨place, w₃, -, h⟩ := on_bind_eq_ok.1 h
    cases h
    rintro _ ⟨⟩
    rfl

theorem Simple.lays_assemble (simple : Simple Utility) (w : World) :
    Lays (simple.targets.filterMap w.target?) simple.destinations w (simple.assemble.on w) := by
  induction simple generalizing w with
  | command utility flags operands =>
    rw [on_assemble_command]
    cases hcheck : Invocation.check utility ⟨some flags, some operands, true⟩ w with
    | error failure => exact .of_error
    | ok invocation =>
      refine ⟨.refl _ w, rfl, ?_⟩
      rintro _ ⟨⟩
      exact Job.laid_command hcheck
  | redirect source sink child ih =>
    have hstill := Source.still_open? source w
    unfold assemble
    rw [on_bind]
    rcases hsource : (Source.open? source).on w with ⟨failure | opened, w'⟩ <;>
      rw [hsource] at hstill <;> dsimp only at hstill ⊢ <;> subst hstill
    · exact .of_error
    obtain ⟨hframes, hcwd, hfile⟩ := Sink.frames_open? sink w'
    rw [on_bind, targets, filterMap_append]
    rcases hsink : (Sink.open? sink).on w' with ⟨failure | file, w''⟩ <;>
      rw [hsink] at hframes hcwd hfile <;> dsimp only at hframes hcwd hfile ⊢
    · exact .of_failure (hframes.mono (subset_append_left _ _)) hcwd
    have hchild := ih w''
    rw [funext (World.target?_of_dirs hcwd hframes.dirs)] at hchild
    rw [on_bind]
    rcases hjob : child.assemble.on w'' with ⟨failure | job, w₁⟩ <;> rw [hjob] at hchild
    · exact .of_failure (hframes.append hchild.frames) (hchild.cwd.trans hcwd)
    refine ⟨hframes.append hchild.frames, hchild.cwd.trans hcwd, ?_⟩
    rintro _ ⟨⟩
    have hlaid := hchild.job job rfl
    have hplaces : ∀ place ∈ (file.map (·.place)).toList,
        place ∈ sink.toList.filterMap w'.target? ∧ ¬ w'.root.HasDir place := by
      intro place hplace
      obtain ⟨found, hfound, rfl⟩ := Option.map_eq_some_iff.1 (Option.mem_toList.1 hplace)
      exact (hfile file rfl found hfound).1
    refine ⟨append_subset.2 ⟨fun place hplace => ?_, ?_⟩, fun place hplace => ?_,
      ⟨Source.opened_of_open? hsource, fun found hfound => (hfile file rfl found hfound).2,
        hlaid.opened⟩, hlaid.destinations, fun path hpath => ?_⟩
    · exact mem_append_left _ (hplaces place hplace).1
    · exact subset_append_of_subset_right _ hlaid.sinks
    · rcases mem_append.1 hplace with hplace | hplace
      · exact (hplaces place hplace).2
      · rw [← hframes.dirs]
        exact hlaid.writable place hplace
    · rw [← World.isDir_of_dirs hcwd hframes.dirs]
      exact hlaid.enterable path hpath

theorem Job.laid_forward (text : Text) (status : Int) (targets : List Location)
    (paths : List Text) (w : World) : (Job.forward text status).Laid targets paths w :=
  ⟨nil_subset _, nofun, trivial, nil_sublist _, nofun⟩

theorem Plan.lays_assemble (plan : Plan Utility) (ports : Ports) (w : World) :
    Lays (plan.targets w) plan.destinations w ((plan.assemble ports).on w) := by
  induction plan generalizing ports w with
  | simple command =>
    rw [targets, destinations, commands, flatMap_singleton, flatMap_singleton]
    exact command.lays_assemble w
  | tolerant child ih =>
    have hchild := ih ports w
    unfold assemble
    refine lays_connect child ports ?_
    rw [on_tryCatch, on_bind]
    rcases hjob : (child.assemble ports).on w with ⟨(cause | cause) | job, w'⟩ <;>
      rw [hjob] at hchild
    · refine ⟨hchild.frames, hchild.cwd, ?_⟩
      rintro _ ⟨⟩
      exact Job.laid_forward _ _ _ _ w
    · exact .of_failure hchild.frames hchild.cwd
    · refine ⟨hchild.frames, hchild.cwd, ?_⟩
      rintro _ ⟨⟩
      obtain ⟨hsinks, hwritable, hopened, hpaths, henterable⟩ := hchild.job job rfl
      exact ⟨hsinks, hwritable, hopened, hpaths, henterable⟩
  | pipe left right ihl ihr =>
    unfold assemble
    refine lays_connect left .both (lays_connect right .both ?_)
    rw [targets, destinations, commands, flatMap_append, flatMap_append]
    exact lays_pair (ihl .both) (ihr .both) (fun _ _ => right.targets_of_dirs) (fun _ _ => rfl)
      (fun _ _ => And.intro) (fun _ _ => rfl) w
  | seq left right ihl ihr =>
    unfold assemble
    dsimp only
    refine lays_connect left ports (lays_connect right _ ?_)
    rw [targets, destinations, commands, flatMap_append, flatMap_append]
    exact lays_pair (ihl ports) (ihr _) (fun _ _ => right.targets_of_dirs) (fun _ _ => rfl)
      (fun _ _ => And.intro) (fun _ _ => rfl) w
  | forward text status =>
    refine ⟨.refl _ w, rfl, ?_⟩
    rintro _ ⟨⟩
    exact Job.laid_forward _ _ _ _ w

namespace Plan

/-- However far a plan gets, it writes to its own files and goes to its own directories only. -/
theorem effect_spares (plan : Plan Utility) (scene : Scene) :
    ∀ w ∈ [(plan.effect scene).scene.world, (plan.effect scene).world],
      scene.world.Frames (plan.targets scene.world) w ∧
        scene.world.Strays plan.destinations w := by
  have hlays : Lays (plan.targets scene.world) plan.destinations scene.world
      ((plan.build (.ofStreams scene.input scene.output)).on scene.world) :=
    lays_connect plan _ (plan.lays_assemble _ _)
  unfold effect
  rcases hbuild : (plan.build (.ofStreams scene.input scene.output)).on scene.world with
    ⟨failure | job, w⟩ <;> rw [hbuild] at hlays <;> dsimp only
  · have hstays : scene.world.Strays plan.destinations w := .of_cwd hlays.cwd
    simpa using And.intro hlays.frames hstays
  · have hlaid := hlays.job job rfl
    have hwritable : job.Writable w := hlaid.writable.of_frames hlays.frames (List.Subset.refl _)
    have hran := Job.spares_run hwritable scene.input scene.output
    set ran := job.run ⟨w, scene.input, scene.output⟩
    have hclosed := Job.spares_close (hran.writable hwritable) ran.scene.input ran.scene.output
    have hafter : ran.job.sinks ⊆ plan.targets scene.world := by
      rw [hran.sinks]
      exact hlaid.sinks
    have hframes : scene.world.Frames (plan.targets scene.world) ran.scene.world :=
      hlays.frames.trans (hran.frames.mono hlaid.sinks)
    have hstart : scene.world.Strays [] w := .of_cwd hlays.cwd
    have hstrays : scene.world.Strays plan.destinations ran.scene.world :=
      hstart.append hlays.frames (hran.strays.mono hlaid.destinations)
    intro after hmem
    rcases mem_pair.1 hmem with rfl | rfl
    · exact ⟨hframes, hstrays⟩
    · refine ⟨hframes.trans (hclosed.frames.mono hafter), ?_⟩
      rw [← append_nil plan.destinations]
      exact hstrays.append hframes hclosed.strays

/-- However far a plan gets, it writes to the files of its output redirects only, as they are named
from the working directory at the start. It removes nothing, and it stays where it is unless it
has `cd` in it. -/
theorem effect_frames (plan : Plan Utility) (scene : Scene) :
    ∀ w ∈ [(plan.effect scene).scene.world, (plan.effect scene).world],
      scene.world.Frames (plan.targets scene.world) w ∧
        (plan.moves = false → w.cwd = scene.world.cwd) := by
  intro w hw
  obtain ⟨hframes, hstrays⟩ := plan.effect_spares scene w hw
  refine ⟨hframes, fun hmoves => ?_⟩
  rw [destinations_of_not_moves hmoves] at hstrays
  exact hstrays.cwd_eq

def echoThenCat : Plan Utility :=
  .seq (.simple (.redirect none (some ['g']) (.command .echo [] ["hi".toList])))
    (ofUtility .cat [['f']])

/-- Only the first file is written, though the second cannot be read. -/
theorem effect_frames_echo : echoThenCat.moves = false ∧
    (echoThenCat.effect (.ofInput [])).result =
      .error (.complaint (.unreadable ['f'] ⟨.noEntry, some ['f']⟩)) ∧
    (Scene.ofInput []).world.Frames [[['g']]] (echoThenCat.effect (.ofInput [])).world ∧
    (echoThenCat.effect (.ofInput [])).world.cwd = [] := by
  obtain ⟨hframes, hcwd⟩ := effect_frames echoThenCat (.ofInput []) _
    (mem_cons_of_mem _ mem_cons_self)
  exact ⟨rfl, by cbv, hframes, hcwd rfl⟩

end Plan

end CommandShell
