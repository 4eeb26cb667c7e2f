import CommandShell.Proofs.Utility.Crashes

/-!
# How jobs end

A job in a world in order runs into no crash but those that are allowed, and leaves the world in
order. Its files are written when it is closed, or when a redirect around them is done. Each of
them is empty until then, so if they are different files, each holds one text in the end.
-/

namespace CommandShell

open List

/-- Files that are to be written: their names are in order and, if it is asked for, they are
different files that are still empty. -/
structure World.Pending (textual : Prop) (w : World) (places : List Location) : Prop where
  nulFree : ∀ place ∈ places, NulFree place
  distinct : textual → places.Nodup
  empty : textual → ∀ place ∈ places, w.content place = .empty

namespace World.Pending

variable {textual : Prop} {w w' : World} {places places' : List Location}

theorem of_sublist (h : w.Pending textual places) (hsub : places'.Sublist places) :
    w.Pending textual places' where
  nulFree place hplace := h.nulFree place (hsub.subset hplace)
  distinct ht := (h.distinct ht).sublist hsub
  empty ht place hplace := h.empty ht place (hsub.subset hplace)

theorem of_perm (h : w.Pending textual places) (hperm : places.Perm places') :
    w.Pending textual places' where
  nulFree place hplace := h.nulFree place (hperm.mem_iff.mpr hplace)
  distinct ht := hperm.nodup_iff.mp (h.distinct ht)
  empty ht place hplace := h.empty ht place (hperm.mem_iff.mpr hplace)

theorem of_root (h : w.Pending textual places) (hroot : w'.root = w.root) :
    w'.Pending textual places where
  nulFree := h.nulFree
  distinct := h.distinct
  empty ht place hplace := by
    rw [← h.empty ht place hplace, World.content, World.content, hroot]

end World.Pending

/-- A step that has crashed only as is allowed, and has left the world in order. -/
def Survives {α : Type} (textual : Prop) (P : Crash → Prop) (outcome : Except Failure α × World) :
    Prop :=
  Checked.Within outcome.1 P (fun _ => True) ∧ outcome.2.InOrder textual

namespace Job

def sinks : Job → List Location
  | command _ => []
  | redirect _ sink _ _ child => (sink.map (·.place)).toList ++ child.sinks
  | tolerant child => child.sinks
  | pipe left right _ => left.sinks ++ right.sinks
  | seq left right _ => left.sinks ++ right.sinks
  | forward _ _ => []

def outlets : Job → List Location
  | command _ => []
  | redirect _ none _ _ _ => []
  | redirect _ (some file) _ _ _ => if file.closed then [] else [file.place]
  | tolerant child => child.outlets
  | pipe left right _ => left.outlets ++ right.outlets
  | seq left right _ => left.outlets ++ right.outlets
  | forward _ _ => []

theorem outlets_sublist (job : Job) : job.outlets.Sublist job.sinks := by
  induction job with
  | command invocation => exact .refl _
  | redirect source sink input output child ih =>
    cases sink with
    | none => exact nil_sublist _
    | some file =>
      unfold outlets
      split_ifs
      · exact nil_sublist _
      · exact sublist_append_left [file.place] child.sinks
  | tolerant child ih => exact ih
  | pipe left right middle ihl ihr => exact ihl.append ihr
  | seq left right input ihl ihr => exact ihl.append ihr
  | forward text status => exact .refl _

theorem outlets_of_start {sink sink' : Option Sink} (hsink : ∀ file ∈ sink, file = .start file.place)
    (h : sink'.map (fun file => (file.place, file.closed)) =
      sink.map (fun file => (file.place, file.closed)))
    (source : Option Source) (input output : Stream) (child : Job) :
    (redirect source sink' input output child).outlets = (sink.map (·.place)).toList := by
  cases sink with
  | none =>
    cases sink' with
    | none => rfl
    | some file' => cases h
  | some file =>
    cases sink' with
    | none => cases h
    | some file' =>
      simp only [Option.map_some, Option.some.injEq, Prod.mk.injEq] at h
      have hopen : file.closed = false := by rw [hsink file rfl]; rfl
      rw [outlets, h.2, hopen, h.1]
      rfl

section Closing

variable {textual : Prop} {w : World} {rest : List Location}

/-- Closing writes to the files of a job, and to no others. -/
theorem inOrder_closing {job : Job} (hw : w.InOrder textual)
    (h : w.Pending textual (job.outlets ++ rest)) :
    (job.closing w).InOrder textual ∧ (job.closing w).Pending textual rest := by
  induction job generalizing w rest with
  | command invocation => exact ⟨hw, h⟩
  | redirect source sink input output child ih =>
    cases sink with
    | none => exact ⟨hw, h⟩
    | some file =>
      unfold outlets at h
      rw [closing, Sink.close]
      by_cases hclosed : file.closed = true
      · rw [if_pos hclosed] at h ⊢
        exact ⟨hw, h⟩
      · rw [if_neg hclosed] at h ⊢
        -- The file is empty and not among the others, so it alone is written.
        have hplace : file.place ∈ [file.place] ++ rest := mem_cons_self
        have hrest := h.of_sublist (sublist_cons_self file.place rest)
        refine ⟨hw.overwrite (h.nulFree _ hplace) (fun ht => h.empty ht _ hplace) _,
          hrest.nulFree, hrest.distinct, fun ht other hother => ?_⟩
        refine World.content_overwrite ?_ (hrest.empty ht other hother) _
        rintro rfl
        exact (nodup_cons.mp (h.distinct ht)).1 hother
  | tolerant child ih => exact ih hw h
  | pipe left right middle ihl ihr | seq left right input ihl ihr =>
    rw [outlets, append_assoc] at h
    obtain ⟨hw', h'⟩ := ihl hw h
    exact ihr hw' h'
  | forward text status => exact ⟨hw, h⟩

end Closing

/-! ## Running -/

/-- A job that has not been run, with commands that crash only as is allowed. -/
def Ready (textual : Prop) (P : Crash → Prop) : Job → Prop
  | command invocation => invocation.run.Within textual P fun _ => True
  | redirect source sink input output child =>
    (∀ file ∈ source, file = .start file.place) ∧ (∀ file ∈ sink, file = .start file.place) ∧
      input = .empty ∧ output = .empty ∧ child.Ready textual P
  | tolerant child => child.Ready textual P
  | pipe left right middle => left.Ready textual P ∧ right.Ready textual P ∧ middle = .empty
  | seq left right input => left.Ready textual P ∧ right.Ready textual P ∧ input = .empty
  | forward _ _ => True

/-- An outcome that is allowed, in a world that is in order. -/
structure Ends (textual : Prop) (P : Crash → Prop) (rest : List Location) (outcome : Outcome Int) :
    Prop where
  result : Checked.Within outcome.result P fun _ => True
  world : outcome.scene.world.InOrder textual
  pending : outcome.scene.world.Pending textual (outcome.job.outlets ++ rest)

section Running

variable {textual : Prop} {P : Crash → Prop}

theorem Ready.fresh {job : Job} (h : job.Ready textual P) : job.Fresh := by
  induction job with
  | command invocation => trivial
  | redirect source sink input output child ih => exact ⟨h.2.2.1, h.2.2.2.1, ih h.2.2.2.2⟩
  | tolerant child ih => exact ih h
  | pipe left right middle ihl ihr | seq left right input ihl ihr =>
    exact ⟨ihl h.1, ihr h.2.1, h.2.2⟩
  | forward text status => trivial

variable {w : World} {input : Stream}

theorem Usable.isOpen (h : input.Usable P) : input.isOpen = true := by
  rcases input with ⟨text, position, closed⟩ | closed | _
  · cases h
    rfl
  · cases h.1
    rfl
  · cases h

theorem root_run (invocation : Invocation) (w : World) (input : Stream) (text : Text) :
    (invocation.run.on ⟨w, input, .ended text⟩).2.world.root = w.root := by
  cases hmoves : invocation.moves with
  | false =>
    obtain ⟨result, input', added, -, hon⟩ := Invocation.steady_run hmoves w input
    rw [hon _ (Stream.isWritable_ended text)]
  | true =>
    cases invocation with
    | cd c =>
      change (c.run.on _).2.world.root = _
      rw [Cd.on_run]
      split
      · next henter =>
          obtain ⟨-, place, -, rfl⟩ := World.enter_eq_ok.1 henter
          rfl
      · rfl
    | _ => cases hmoves

section Parts

variable {left right job : Job} {rest : List Location} {scene scene' : Scene}

theorem Ends.of_first {failure : Failure}
    (h : Ends textual P (right.sinks ++ rest) ⟨.error failure, left, scene⟩)
    (hjob : job.outlets = left.outlets ++ right.outlets) (hworld : scene'.world = scene.world) :
    Ends textual P rest ⟨.error failure, job, scene'⟩ := by
  refine ⟨h.result, hworld ▸ h.world, ?_⟩
  rw [hjob, append_assoc, hworld]
  exact h.pending.of_sublist (((outlets_sublist right).append_right rest).append_left _)

theorem Ends.of_second {result : Except Failure Int}
    (h : Ends textual P (left.outlets ++ rest) ⟨result, right, scene⟩)
    (hjob : job.outlets = left.outlets ++ right.outlets) (hworld : scene'.world = scene.world) :
    Ends textual P rest ⟨result.map fun _ => 0, job, scene'⟩ := by
  refine ⟨h.result.map, hworld ▸ h.world, ?_⟩
  rw [hjob, append_assoc, hworld]
  exact h.pending.of_perm (perm_append_comm_assoc _ _ _)

end Parts

variable (hspoilt : ¬ textual → P .notUtf8)
include hspoilt

/-- What a redirect reads is text, or crashing because it is not is allowed. -/
theorem within_fill {source : Option Source} (hsource : ∀ file ∈ source, file = .start file.place)
    (hw : w.InOrder textual) (hinput : input.Usable P) {output : Stream} {cause : Crash}
    (h : (fill source .empty ⟨w, input, output⟩).1 = .error cause) : P cause := by
  cases source with
  | some file =>
    have hstart : file.offset = 0 := by rw [hsource file rfl]; rfl
    cases hmore : file.hasNoMore w with
    | true => simp [fill, sourceIsEmpty, hmore, pure, Except.pure] at h
    | false =>
      simp only [fill, sourceIsEmpty, hmore, readSource, pure, Except.pure, Source.read, hstart,
        ByteArray.extract_zero_size] at h
      cases htext : Content.text? (w.content file.place) with
      | some s => simp [htext, Except.bind] at h
      | none =>
        simp only [htext, Except.bind, Except.error.injEq] at h
        subst h
        exact hspoilt fun ht => by simpa [htext] using hw.holdsText ht file.place
  | none =>
    rcases input with ⟨text, position, closed⟩ | closed | _
    · cases hinput
      simp only [fill, sourceIsEmpty, Stream.hasNoMore, readSource, Stream.read, pure,
        Except.pure] at h
      split at h
      · next hmore => cases hmore
      · cases h
      · simp [Except.bind] at h
    · cases h
    · cases hinput

/-- While the child of a redirect runs, the file of the redirect is one that others are to write;
it comes back as an outlet of the redirect once the child has been closed. -/
theorem ends_redirect {source : Option Source} {sink : Option Sink} {child : Job}
    {rest : List Location} (hsource : ∀ file ∈ source, file = .start file.place)
    (hsink : ∀ file ∈ sink, file = .start file.place) (hchild : child.Fresh)
    (hw : w.InOrder textual)
    (hpending : w.Pending textual ((redirect source sink .empty .empty child).sinks ++ rest))
    (hinput : input.Usable P) (text : Text)
    (ih : ∀ held, Ends textual P ((sink.map (·.place)).toList ++ rest)
      (child.run ⟨w, .ofText held, .ended []⟩)) :
    Ends textual P rest
      ((redirect source sink .empty .empty child).run ⟨w, input, .ended text⟩) := by
  have hstays : ∀ source', w.Pending textual
      ((redirect source' sink .empty .empty child).outlets ++ rest) := fun source' =>
    hpending.of_sublist
      ((outlets_sublist (redirect source' sink .empty .empty child)).append_right rest)
  have houtput := Stream.isWritable_ended text
  rw [run, anyClosed_of_isWritable _ _ _ _ houtput]
  by_cases hclosed : anyClosed source sink .empty .empty ⟨w, input, .empty⟩ = true
  · rw [if_pos hclosed]
    exact ⟨trivial, hw, hstays source⟩
  · obtain ⟨filled, source', input', -, hfill⟩ := fill_empty source w input
    rw [if_neg hclosed, hfill]
    cases filled with
    | error cause =>
      have hcause : P cause :=
        within_fill hspoilt hsource hw hinput (congrArg Prod.fst (hfill .empty))
      exact ⟨hcause, hw, hstays source'⟩
    | ok held =>
      obtain ⟨result, child', w', inner, new, hruns⟩ := hchild.appends w (.ofText held)
      obtain ⟨sink', stream, stream', child'', added, hsame, hfinish⟩ :=
        finish_ended hruns.connected (isConnected_of_isOpen (hruns.isOpen rfl)) source' sink w
          w' input' new result
      have hends := ih held
      rw [hruns.run_eq] at hends
      obtain ⟨hworld, hfiles⟩ := inOrder_closing hends.world hends.pending
      change Ends textual P rest (finish source' sink 0 ⟨w, input', .ended text⟩
        (child.run ⟨w, .ofText held, .ended []⟩))
      rw [hruns.run_eq, nil_append, hfinish _ houtput]
      refine ⟨hends.result, hworld, ?_⟩
      rw [outlets_of_start hsink hsame]
      exact hfiles

/-- A job that is ready ends as is allowed, whatever files others are to write. -/
theorem Ready.ends {job : Job} (hjob : job.Ready textual P) {rest : List Location}
    (hw : w.InOrder textual) (hpending : w.Pending textual (job.sinks ++ rest))
    (hinput : input.Usable P) (text : Text) :
    Ends textual P rest (job.run ⟨w, input, .ended text⟩) := by
  induction job generalizing w input rest text with
  | command invocation =>
    obtain ⟨hresult, hrunning⟩ := hjob ⟨w, input, .ended text⟩ ⟨hw, hinput, text, rfl⟩
    rw [run_command]
    exact ⟨hresult.map, hrunning.world, hpending.of_root (root_run invocation w input text)⟩
  | redirect source sink inner output child ih =>
    obtain ⟨hsource, hsink, rfl, rfl, hchild⟩ := hjob
    refine ends_redirect hspoilt hsource hsink hchild.fresh hw hpending hinput text fun held => ?_
    rw [sinks, append_assoc] at hpending
    have hheld : (Stream.ofText held).Usable P := rfl
    exact ih hchild hw (hpending.of_perm (perm_append_comm_assoc _ _ _)) hheld []
  | tolerant child ih =>
    have hfresh : child.Fresh := Ready.fresh hjob
    obtain ⟨result, child', w', input', added, hruns⟩ := hfresh.appends w input
    have hends := ih hjob hw hpending hinput text
    rw [hruns.run_eq] at hends
    simp only [run, hruns.run_eq]
    rcases result with (cause | cause) | status
    · simp only [Stream.write_ended]
      exact ⟨trivial, hends.world, hends.pending⟩
    · exact ⟨hends.result, hends.world, hends.pending⟩
    · exact ⟨hends.result, hends.world, hends.pending⟩
  | pipe left right middle ihl ihr =>
    obtain ⟨hleft, hright, rfl⟩ := hjob
    rw [sinks, append_assoc] at hpending
    obtain ⟨result, left', w', input', new, hruns⟩ := hleft.fresh.appends w input
    have hrun : left.run ⟨w, input, .empty⟩ = ⟨result, left', ⟨w', input', .ended new⟩⟩ :=
      hruns.run_eq []
    have hl : Ends textual P (right.sinks ++ rest)
        ⟨result, left', ⟨w', input', .ended new⟩⟩ := hrun ▸ ihl hleft hw hpending hinput []
    cases result with
    | error failure =>
      simp only [run, hrun]
      exact hl.of_first rfl rfl
    | ok status =>
      obtain ⟨result, right', w'', middle, added, hruns'⟩ :=
        hright.fresh.appends w' (.ofText new)
      have hnew : (Stream.ofText new).Usable P := rfl
      have hr := ihr hright hl.world
        (hl.pending.of_perm (perm_append_comm_assoc _ _ _)) hnew text
      have hseek : (Stream.ended new).seek 0 = .ok (.ofText new) := rfl
      rw [hruns'.run_eq] at hr
      simp only [run, hrun, hseek, hruns'.run_eq]
      exact hr.of_second rfl rfl
  | seq left right inner ihl ihr =>
    obtain ⟨hleft, hright, rfl⟩ := hjob
    rw [sinks, append_assoc] at hpending
    obtain ⟨result, left', w', input', new, hruns⟩ := hleft.fresh.appends w input
    have hl := ihl hleft hw hpending hinput text
    rw [hruns.run_eq] at hl
    cases result with
    | error failure =>
      simp only [run, hruns.run_eq]
      exact hl.of_first rfl rfl
    | ok status =>
      obtain ⟨result, right', w'', inner, added, hruns'⟩ := hright.fresh.appends w' .empty
      have hempty : Stream.empty.Usable P := rfl
      have hr := ihr hright hl.world
        (hl.pending.of_perm (perm_append_comm_assoc _ _ _)) hempty (text ++ new)
      rw [hruns'.run_eq] at hr
      simp only [run, hruns.run_eq, hruns'.run_eq]
      exact hr.of_second rfl rfl
  | forward message status =>
    simp only [run, Stream.write_ended]
    exact ⟨trivial, hw, hpending⟩

theorem Ready.survives {job : Job} (hjob : job.Ready textual P) (hw : w.InOrder textual)
    (hpending : w.Pending textual job.sinks) (hinput : input.Usable P) :
    Survives textual P ((job.outputWith input).on w) := by
  obtain ⟨result, job', w', input', added, hruns⟩ := hjob.fresh.appends w input
  have hends := hjob.ends hspoilt hw (by rwa [append_nil]) hinput []
  rw [hruns.run_eq] at hends
  rw [on_outputWith_of_runs hruns (Usable.isOpen hinput)]
  exact ⟨hends.result.map, (inOrder_closing hends.world hends.pending).1⟩

end Running

end Job

/-! ## Assembly -/

/-- A world in which files are created where they would be in another. -/
def World.Retains (v w : World) : Prop :=
  ∀ path place, Path.resolveNew w.root w.cwd path = .ok place →
    Path.resolveNew v.root v.cwd path = .ok place

/-- The place of a file to be written, if it can be. -/
def World.target? (w : World) (path : Text) : Option Location :=
  (Path.resolveNew w.root w.cwd path).toOption

/-- What a step has done that opens files: each is empty now, and others that were empty still
are. -/
structure Shell.Opened {α : Type} (v : World) (textual : Prop) (P : Crash → Prop)
    (Q : α → List Location → Prop) (w : World) (outcome : Except Failure α × World) : Prop where
  result : Checked.Within outcome.1 P fun a => ∃ places, Q a places ∧
    ∀ place ∈ places, NulFree place ∧ outcome.2.content place = .empty
  world : outcome.2.InOrder textual
  retains : v.Retains outcome.2
  emptied : ∀ place, w.content place = .empty → outcome.2.content place = .empty

/-- A step that opens files and crashes only as is allowed. -/
def Shell.Opens {α : Type} (step : Shell α) (v : World) (textual : Prop) (P : Crash → Prop)
    (Q : α → List Location → Prop) : Prop :=
  ∀ w, w.InOrder textual → v.Retains w → Opened v textual P Q w (step.on w)

namespace Shell

variable {α β : Type} {v : World} {textual : Prop} {P : Crash → Prop}
  {Q : α → List Location → Prop} {R : β → List Location → Prop}

theorem opens_ofChecked {x : Checked α} (h : x.Within P fun a => Q a []) :
    (ofChecked x).Opens v textual P Q := by
  intro w hw hretains
  rw [on_ofChecked]
  exact ⟨h.mono fun a ha => ⟨[], ha, fun _ hplace => nomatch hplace⟩, hw, hretains, fun _ => id⟩

theorem opens_pure {a : α} (h : Q a []) : (pure a : Shell α).Opens v textual P Q :=
  opens_ofChecked (x := .ok a) h

theorem opens_get : (get : Shell World).Opens v textual P fun _ places => places = [] :=
  fun _ hw hretains => ⟨⟨[], rfl, fun _ hplace => nomatch hplace⟩, hw, hretains, fun _ => id⟩

theorem Opens.bind {step : Shell α} {next : α → Shell β} (h : step.Opens v textual P Q)
    (hnext : ∀ a places, Q a places →
      (next a).Opens v textual P fun b more => R b (places ++ more)) :
    (step >>= next).Opens v textual P R := by
  intro w hw hretains
  have h := h w hw hretains
  rw [on_bind]
  rcases hon : step.on w with ⟨(cause | cause) | a, w'⟩ <;> rw [hon] at h
  · exact ⟨trivial, h.world, h.retains, h.emptied⟩
  · exact ⟨h.result, h.world, h.retains, h.emptied⟩
  · obtain ⟨places, hQ, hplaces⟩ := h.result
    have hnext := hnext a places hQ w' h.world h.retains
    refine ⟨hnext.result.mono fun b => ?_, hnext.world, hnext.retains,
      fun place hplace => hnext.emptied place (h.emptied place hplace)⟩
    rintro ⟨more, hR, hmore⟩
    refine ⟨places ++ more, hR, fun place hplace => ?_⟩
    rcases mem_append.mp hplace with hplace | hplace
    · exact ⟨(hplaces place hplace).1, hnext.emptied place (hplaces place hplace).2⟩
    · exact hmore place hplace

theorem Opens.tryCatch {step : Shell α} {handle : Failure → Shell α}
    (h : step.Opens v textual P Q)
    (hcomplaint : ∀ cause, (handle (.complaint cause)).Opens v textual P Q)
    (hcrash : ∀ cause, P cause → (handle (.crash cause)).Opens v textual P Q) :
    (MonadExcept.tryCatch step handle).Opens v textual P Q := by
  intro w hw hretains
  have h := h w hw hretains
  rw [on_tryCatch]
  rcases hon : step.on w with ⟨(cause | cause) | a, w'⟩ <;> rw [hon] at h
  · have hhandle := hcomplaint cause w' h.world h.retains
    exact ⟨hhandle.result, hhandle.world, hhandle.retains,
      fun place hplace => hhandle.emptied place (h.emptied place hplace)⟩
  · have hhandle := hcrash cause h.result w' h.world h.retains
    exact ⟨hhandle.result, hhandle.world, hhandle.retains,
      fun place hplace => hhandle.emptied place (h.emptied place hplace)⟩
  · exact h

end Shell

open Shell

theorem Source.opens_open? {path? : Option Text} {v : World} {textual : Prop} {P : Crash → Prop}
    (hnul : ∀ path ∈ path?, '\x00' ∈ path → P .nulInPath) :
    (Source.open? path?).Opens v textual P fun source places =>
      places = [] ∧ ∀ file ∈ source, file = .start file.place := by
  cases path? with
  | none => exact opens_pure ⟨rfl, fun file hfile => nomatch hfile⟩
  | some path =>
    intro w hw hretains
    unfold Source.open?
    dsimp only
    rw [on_bind, on_get]
    dsimp only
    rw [on_bind, on_ofCall]
    rcases hopen : w.openToRead path with (error | _) | place
    · exact ⟨trivial, hw, hretains, fun _ => id⟩
    · exact ⟨hnul path rfl (World.onPath_eq_nul hopen), hw, hretains, fun _ => id⟩
    · refine ⟨⟨[], ⟨rfl, fun file hfile => ?_⟩, fun _ hplace => nomatch hplace⟩, hw, hretains,
        fun _ => id⟩
      cases hfile
      rfl

theorem Sink.opens_open? {path? : Option Text} {v : World} {textual : Prop} {P : Crash → Prop}
    (hnul : ∀ path ∈ path?, '\x00' ∈ path → P .nulInPath) :
    (Sink.open? path?).Opens v textual P fun sink places =>
      (sink.map (·.place)).toList = places ∧ places = path?.toList.filterMap v.target? ∧
        ∀ file ∈ sink, file = .start file.place := by
  cases path? with
  | none => exact opens_pure ⟨rfl, rfl, fun file hfile => nomatch hfile⟩
  | some path =>
    intro w hw hretains
    unfold Sink.open?
    dsimp only
    rw [on_bind, on_get]
    dsimp only
    rw [on_bind, on_ofCall]
    rcases hopen : w.openToWrite path with (error | _) | ⟨place, w'⟩
    · exact ⟨trivial, hw, hretains, fun _ => id⟩
    · exact ⟨hnul path rfl (World.onPath_eq_nul hopen), hw, hretains, fun _ => id⟩
    · obtain ⟨hw', hplace, hempty, hothers⟩ := hw.openToWrite hopen
      obtain ⟨-, hresolve, rfl⟩ := World.openToWrite_eq_ok hopen
      have htarget : v.target? path = some place := by
        rw [World.target?, hretains path place hresolve]
        rfl
      refine ⟨⟨[place], ⟨rfl, by simp [htarget], fun file hfile => ?_⟩, fun other hother => ?_⟩,
        hw', fun other found hfound => ?_, hothers⟩
      · cases hfile
        rfl
      · cases mem_singleton.mp hother
        exact ⟨hplace, hempty⟩
      · exact hretains other found (Path.resolveNew_of_put hfound)

namespace Simple

def flags : Simple κ → List Flag
  | command _ flags _ => flags
  | redirect _ _ child => child.flags

def operands : Simple κ → List Text
  | command _ _ operands => operands
  | redirect _ _ child => child.operands

def files : Simple κ → List Text
  | command _ _ _ => []
  | redirect source sink child => source.toList ++ sink.toList ++ child.files

def targets : Simple κ → List Text
  | command _ _ _ => []
  | redirect _ sink child => sink.toList ++ child.targets

/-- A command that names no path with a NUL character, unless that is allowed, and whose lists are
lists of texts. -/
structure Orderly (nul : Prop) (simple : Simple κ) : Prop where
  paths : ∀ path ∈ simple.operands ++ simple.files, '\x00' ∈ path → nul
  lists : ∀ flag ∈ simple.flags, flag.value.HoldsTexts

/-- A command whose arguments and redirects bring about only crashes that are allowed. -/
structure Harmless (P : Crash → Prop) (simple : Simple Utility) : Prop where
  orderly : simple.Orderly (P .nulInPath)
  trips : ∀ cause, simple.kind.Trips simple.flags simple.operands cause → P cause

end Simple

namespace Plan

def commands : Plan κ → List (Simple κ)
  | simple command => [command]
  | tolerant child => child.commands
  | pipe left right => left.commands ++ right.commands
  | seq left right => left.commands ++ right.commands
  | forward _ _ => []

def targets (w : World) (plan : Plan κ) : List Location :=
  plan.commands.flatMap fun simple => simple.targets.filterMap w.target?

end Plan

/-- A job that is ready, with the files that it is to write, some of those that are named. -/
def Job.Awaits (textual : Prop) (P : Crash → Prop) (targets : List Location) (job : Job)
    (places : List Location) : Prop :=
  job.Ready textual P ∧ job.sinks = places ∧ places.Sublist targets

section Assembly

variable {v : World} {textual : Prop} {P : Crash → Prop}

theorem opens_pair {left right : Shell Job} {ltargets rtargets : List Location}
    {join : Job → Job → Job}
    (hleft : left.Opens v textual P (Job.Awaits textual P ltargets))
    (hright : right.Opens v textual P (Job.Awaits textual P rtargets))
    (hready : ∀ first second, first.Ready textual P → second.Ready textual P →
      (join first second).Ready textual P)
    (hsinks : ∀ first second, (join first second).sinks = first.sinks ++ second.sinks) :
    Shell.Opens (do return join (← left) (← right)) v textual P
      (Job.Awaits textual P (ltargets ++ rtargets)) := by
  refine hleft.bind fun first places hfirst => hright.bind fun second more hsecond => opens_pure ?_
  obtain ⟨hl, rfl, hplaces⟩ := hfirst
  obtain ⟨hr, rfl, hmore⟩ := hsecond
  rw [append_nil]
  exact ⟨hready _ _ hl hr, hsinks _ _, hplaces.append hmore⟩

variable (hspoilt : ¬ textual → P .notUtf8)
include hspoilt

theorem Simple.opens_assemble {simple : Simple Utility} (h : simple.Harmless P) :
    simple.assemble.Opens v textual P
      (Job.Awaits textual P (simple.targets.filterMap v.target?)) := by
  induction simple with
  | command utility flags operands =>
    refine opens_get.bind fun w places hplaces => ?_
    subst hplaces
    refine (opens_ofChecked (Q := fun invocation places => places = [] ∧
      invocation.run.Within textual P fun _ => True) ?_).bind fun invocation places hready => ?_
    · refine (Invocation.within_check hspoilt (fun operand hoperand => ?_) h.orderly.lists h.trips
        w).mono fun _ hready => ⟨rfl, hready⟩
      exact h.orderly.paths operand (mem_append_left _ hoperand)
    · obtain ⟨rfl, hready⟩ := hready
      exact opens_pure ⟨hready, rfl, .refl _⟩
  | redirect source sink child ih =>
    have hpaths : ∀ path ∈ source.toList ++ sink.toList ++ child.files, '\x00' ∈ path →
        P .nulInPath := fun path hpath => h.orderly.paths path (mem_append_right _ hpath)
    have hchild : child.Harmless P := by
      refine ⟨⟨fun path hpath => ?_, h.orderly.lists⟩, h.trips⟩
      rcases mem_append.mp hpath with hpath | hpath
      · exact h.orderly.paths path (mem_append_left _ hpath)
      · exact hpaths path (mem_append_right _ hpath)
    refine (Source.opens_open? fun path hpath => hpaths path (by simp_all)).bind
      fun opened places hopened => ?_
    obtain ⟨rfl, hopened⟩ := hopened
    refine (Sink.opens_open? fun path hpath => hpaths path (by simp_all)).bind
      fun file places hfile => ?_
    obtain ⟨hplaces, hnamed, hfile⟩ := hfile
    refine (ih hchild).bind fun inner more hinner => opens_pure ?_
    obtain ⟨hready, hsinks, hmore⟩ := hinner
    rw [nil_append, append_nil]
    refine ⟨⟨hopened, hfile, rfl, rfl, hready⟩, ?_, ?_⟩
    · rw [Job.sinks, hplaces, hsinks]
    · rw [Simple.targets, filterMap_append, ← hnamed]
      exact hmore.append_left places

theorem Plan.opens_assemble {plan : Plan Utility} (h : ∀ simple ∈ plan.commands, simple.Harmless P) :
    (plan.assemble .both).Opens v textual P (Job.Awaits textual P (plan.targets v)) := by
  induction plan with
  | simple command =>
    rw [targets, commands, flatMap_singleton]
    exact Simple.opens_assemble hspoilt (h command mem_cons_self)
  | tolerant child ih =>
    unfold assemble
    rw [connect_both, pure_bind]
    refine Opens.tryCatch ?_ (fun cause => ?_) fun cause hcause => ?_
    · refine (ih h).bind fun inner places hinner => opens_pure ?_
      rw [append_nil]
      exact hinner
    · -- What was opened before the complaint is never written.
      exact opens_pure ⟨trivial, rfl, nil_sublist _⟩
    · exact opens_ofChecked (x := .error (.crash cause)) hcause
  | pipe left right ihl ihr =>
    rw [commands, forall_mem_append] at h
    unfold assemble
    rw [connect_both, pure_bind, connect_both, pure_bind, targets, commands, flatMap_append]
    exact opens_pair (ihl h.1) (ihr h.2) (fun _ _ hl hr => ⟨hl, hr, rfl⟩) fun _ _ => rfl
  | seq left right ihl ihr =>
    rw [commands, forall_mem_append] at h
    rw [assemble_seq, targets, commands, flatMap_append]
    exact opens_pair (ihl h.1) (ihr h.2) (fun _ _ hl hr => ⟨hl, hr, rfl⟩) fun _ _ => rfl
  | forward text status => exact opens_pure ⟨trivial, rfl, .refl _⟩

/-- A plan without harm that writes to different files crashes only as is allowed and leaves the
world in order. An input that cannot be read does no harm if nothing looks at it. -/
theorem Plan.survives {plan : Plan Utility} (h : ∀ simple ∈ plan.commands, simple.Harmless P)
    {w : World} (hw : w.InOrder textual) (hdistinct : textual → (plan.targets w).Nodup)
    {input : Stream} (hinput : input.Usable P ∨ input = .bare false ∧ plan.listens = false) :
    Survives textual P ((plan.build .both >>= fun job => job.outputWith input).on w) := by
  have hopens := Plan.opens_assemble hspoilt h w hw fun _ _ => id
  rw [build_both, Shell.on_bind]
  rcases hassemble : (plan.assemble .both).on w with ⟨(cause | cause) | job, w'⟩ <;>
    rw [hassemble] at hopens
  · exact ⟨trivial, hopens.world⟩
  · exact ⟨hopens.result, hopens.world⟩
  · obtain ⟨places, ⟨hready, hsinks, hplaces⟩, hfiles⟩ := hopens.result
    have hpending : w'.Pending textual job.sinks := by
      rw [hsinks]
      exact ⟨fun place hplace => (hfiles place hplace).1, fun ht => (hdistinct ht).sublist hplaces,
        fun _ place hplace => (hfiles place hplace).2⟩
    rcases hinput with hinput | ⟨rfl, hlistens⟩
    · exact hready.survives hspoilt hopens.world hpending hinput
    · have hdeaf := Job.outputWith_bare hready.fresh (listens_of_assemble hlistens hassemble) w'
      change Survives textual P ((job.outputWith (.bare false)).on w')
      rw [hdeaf]
      exact hready.survives hspoilt hopens.world hpending rfl

end Assembly

end CommandShell
