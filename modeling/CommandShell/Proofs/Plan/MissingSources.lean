import CommandShell.Proofs.Line.RedirectPosition
import CommandShell.Proofs.Plan.Redirects

/-!
# Redirects from files that are not there

The files of redirects are opened from the last redirect of a line to the first. If the file to
read is not there and its redirect comes last, nothing has happened when that is found out. If it
comes first, the file to write has been created or emptied by then. It may even be that what was
looked for leads through the file that has just been created, and then it is not found in another
way.
-/

namespace CommandShell

/-! ## Looking for what is not there -/

variable {root : Node} {path : Text} {place : Location}

theorem Node.Takes.get?_put_of_none {file other : Location} (hfile : root.Takes file)
    (hnone : root.get? other = none) (hne : other ≠ file) (content : ByteArray) :
    (Node.put (.file content) file root).get? other = none := by
  obtain ⟨above, name, entries, rfl, habove⟩ := hfile.parent
  by_contra hsome
  obtain ⟨node, hnode⟩ := Option.ne_none_iff_exists'.mp hsome
  rcases Node.get?_put hnode with ⟨heq, -⟩ | ⟨hbegins, -⟩ | hfound
  · exact hne heq
  · -- all that leads to the file was there before
    rcases List.prefix_concat_iff.mp hbegins with heq | ⟨rest, rfl⟩
    · exact hne (by simpa using heq)
    · rw [get?_append, hnone] at habove
      cases habove
  · rw [hnone] at hfound
    cases hfound

namespace Path

/-- What becomes of a search that found nothing, once there is a file where it can be put: it finds
nothing, or else the file is new, and the search ends there or wants to go on from there. -/
def Missed (root : Node) (file : Location) (search : Except Errno Location) : Prop :=
  search = .error .noEntry ∨
    root.get? file = none ∧ (search = .ok file ∨ search = .error .notDirectory)

theorem step_eq_noEntry {name : Text} :
    step root place name = .error .noEntry ↔ root.get? place = none ∨
      ∃ entries, root.get? place = some (.dir entries) ∧ name ≠ ['.'] ∧ name ≠ ['.', '.'] ∧
        ¬ Text.byteLength name > maxName ∧ Entries.get? name entries = none := by
  unfold step
  rcases root.get? place with _ | (content | entries)
  · exact ⟨fun _ => .inl rfl, fun _ => rfl⟩
  · simp
    exact nofun
  · split_ifs with hdot hdots hlong <;> simp_all [pure, Except.pure, throw, throwThe,
      MonadExceptOf.throw]

theorem step_of_file {content : ByteArray} (h : root.get? place = some (.file content))
    (name : Text) : step root place name = .error .notDirectory := by
  rw [step, h]
  rfl

section Put

variable {root : Node} {file : Location} (hfile : root.Takes file) (content : ByteArray)
include hfile

private theorem step_put_of_noEntry {name : Text} (h : step root place name = .error .noEntry) :
    Missed root file (step (Node.put (.file content) file root) place name) := by
  rcases step_eq_noEntry.mp h with hnone | ⟨entries, hdir, hdot, hdots, hlong, hentry⟩
  · by_cases heq : place = file
    · subst heq
      exact .inr ⟨hnone, .inr (step_of_file (hfile.get?_put content) name)⟩
    · exact .inl (step_eq_noEntry.mpr (.inl (hfile.get?_put_of_none hnone heq content)))
  · obtain ⟨entries', hdir'⟩ := hfile.get?_dir content hdir
    have hnone : root.get? (place ++ [name]) = none := by
      rw [Node.get?_append_singleton hdir, hentry]
    by_cases heq : place ++ [name] = file
    · subst heq
      have hput := hfile.get?_put content
      rw [Node.get?_append_singleton hdir'] at hput
      refine .inr ⟨hnone, .inl (step_eq_ok.mpr ⟨entries', hdir', .inr (.inr ?_)⟩)⟩
      exact ⟨hdot, hdots, hlong, by rw [hput]; rfl, rfl⟩
    · have hstill := hfile.get?_put_of_none hnone heq content
      rw [Node.get?_append_singleton hdir'] at hstill
      exact .inl (step_eq_noEntry.mpr (.inr ⟨entries', hdir', hdot, hdots, hlong, hstill⟩))

private theorem follow_put_file (steps : List Text) :
    follow (Node.put (.file content) file root) file steps = .ok file ∨
      follow (Node.put (.file content) file root) file steps = .error .notDirectory := by
  cases steps with
  | nil => exact .inl rfl
  | cons name steps =>
    right
    rw [follow, List.foldlM_cons, step_of_file (hfile.get?_put content)]
    rfl

private theorem follow_put_of_noEntry {steps : List Text}
    (h : follow root place steps = .error .noEntry) :
    Missed root file (follow (Node.put (.file content) file root) place steps) := by
  induction steps generalizing place with
  | nil => cases h
  | cons name steps ih =>
    rw [follow, List.foldlM_cons] at h ⊢
    cases hstep : step root place name with
    | ok next =>
      rw [hstep] at h
      rw [step_put hfile content hstep]
      exact ih h
    | error errno =>
      rw [hstep] at h
      cases h
      rcases step_put_of_noEntry hfile content hstep with hmiss | ⟨hnone, hnew | hmiss⟩
      · exact .inl (by rw [hmiss]; rfl)
      · rw [hnew]
        exact .inr ⟨hnone, follow_put_file hfile content steps⟩
      · exact .inr ⟨hnone, .inr (by rw [hmiss]; rfl)⟩

private theorem resolve_put_of_noEntry {cwd : Location}
    (h : resolve root cwd path = .error .noEntry) :
    Missed root file (resolve (Node.put (.file content) file root) cwd path) := by
  unfold resolve at h ⊢
  cases hcheck : check path with
  | error errno =>
    rw [hcheck] at h
    exact .inl h
  | ok _ =>
    rw [hcheck] at h
    exact follow_put_of_noEntry hfile content h

end Put

end Path

namespace World

variable {w : World} {file : Location} (hfile : w.root.Takes file) (content : ByteArray)

section WithFile

include hfile

private theorem find_withFile_of_noEntry (h : w.find path = .error .noEntry) :
    (w.withFile file content).find path = .error .noEntry ∨
      w.root.get? file = none ∧
        ((w.withFile file content).find path = .ok (file, .file content) ∨
          (w.withFile file content).find path = .error .notDirectory) := by
  have hput := hfile.get?_put content
  unfold find at h ⊢
  dsimp only [withFile]
  cases hresolve : Path.resolve w.root w.cwd path with
  | error errno =>
    rw [hresolve] at h
    cases h
    rcases Path.resolve_put_of_noEntry hfile content hresolve with hmiss | ⟨hnone, hnew | hmiss⟩
    · exact .inl (by rw [hmiss]; rfl)
    · exact .inr ⟨hnone, .inl (by rw [hnew]; simp [bind, Except.bind, hput]; rfl)⟩
    · exact .inr ⟨hnone, .inr (by rw [hmiss]; rfl)⟩
  | ok place =>
    have hnone : w.root.get? place = none := by
      by_contra hsome
      obtain ⟨node, hnode⟩ := Option.ne_none_iff_exists'.mp hsome
      rw [hresolve] at h
      simp [bind, Except.bind, hnode] at h
      cases h
    rw [Path.resolve_put hfile content hresolve]
    by_cases heq : place = file
    · subst heq
      exact .inr ⟨hnone, .inl (by simp [bind, Except.bind, hput]; rfl)⟩
    · have hstill := hfile.get?_put_of_none hnone heq content
      exact .inl (by simp [bind, Except.bind, hstill]; rfl)

/-- A file that could not be found before another one was created or emptied: it cannot be found
now, unless it is that one or its path leads through that one. -/
theorem openToRead_withFile_of_noEntry (h : w.openToRead path = .error (.os ⟨.noEntry, some path⟩)) :
    (w.withFile file content).openToRead path = .error (.os ⟨.noEntry, some path⟩) ∨
      w.root.get? file = none ∧
        ((w.withFile file content).openToRead path = .ok file ∨
          (w.withFile file content).openToRead path = .error (.os ⟨.notDirectory, some path⟩)) := by
  have hfault : (w.withFile file content).fault? .open path = w.fault? .open path := rfl
  unfold openToRead onPath at h ⊢
  rw [hfault]
  cases hbound : w.fault? .open path with
  | some errno =>
    rw [hbound] at h
    exact .inl h
  | none =>
    rw [hbound] at h
    dsimp only at h ⊢
    split_ifs at h ⊢ with hnul
    · cases h
    · have hfind : w.find path = .error .noEntry := by
        rcases hfound : w.find path with errno | ⟨place, old | entries⟩ <;> rw [hfound] at h
        · cases h
          rfl
        · cases h
        · cases h
      rcases find_withFile_of_noEntry hfile content hfind with hmiss | ⟨hnone, hnew | hmiss⟩
      · exact .inl (by rw [hmiss]; rfl)
      · exact .inr ⟨hnone, .inl (by rw [hnew]; rfl)⟩
      · exact .inr ⟨hnone, .inr (by rw [hmiss]; rfl)⟩

end WithFile

def SameFiles (w w' : World) : Prop :=
  ∀ place content, w.root.get? place = some (.file content) ↔
    w'.root.get? place = some (.file content)

include hfile in
theorem sameFiles_withFile_iff :
    w.SameFiles (w.withFile file .empty) ↔ w.root.get? file = some (.file .empty) := by
  constructor
  · intro h
    exact (h file .empty).mpr (hfile.get?_put .empty)
  · intro hempty place content
    constructor
    · intro hget
      by_cases heq : place = file
      · subst heq
        cases hempty.symm.trans hget
        exact hfile.get?_put .empty
      · exact get?_withFile hfile .empty hget heq
    · intro hget
      rcases Node.get?_put hget with ⟨rfl, heq⟩ | ⟨-, hdir⟩ | hold
      · rw [hempty, heq]
      · cases hdir
      · exact hold

end World

/-! ## Redirects that cannot be opened -/

open Shell

namespace Simple

variable {w w' : World} {path : Text} {failure : CallFailure}

theorem on_assemble_of_source_error (h : w.openToRead path = .error failure) (sink : Option Text)
    (child : Simple Utility) : (redirect (some path) sink child).assemble.on w =
      (.error (Action.callFailure .redirectFailed failure), w) := by
  rw [assemble, on_bind, Source.open?, on_bind, on_get]
  dsimp only
  rw [on_bind, on_ofCall, h]
  rfl

theorem on_assemble_of_sink_error (h : w.openToWrite path = .error failure)
    (child : Simple Utility) : (redirect none (some path) child).assemble.on w =
      (.error (Action.callFailure .redirectFailed failure), w) := by
  rw [assemble, on_bind, Source.open?, on_pure]
  dsimp only
  rw [on_bind, Sink.open?, on_bind, on_get]
  dsimp only
  rw [on_bind, on_ofCall, h]
  rfl

theorem on_assemble_of_child_error (h : w.openToWrite path = .ok (place, w'))
    {child : Simple Utility} {cause : Failure} (hchild : child.assemble.on w' = (.error cause, w')) :
    (redirect none (some path) child).assemble.on w = (.error cause, w') := by
  have hopen : (Sink.open? (some path)).on w = (.ok (some (.start place)), w') := by
    rw [Sink.open?, on_bind, on_get]
    dsimp only
    rw [on_bind, on_ofCall, h]
    rfl
  rw [assemble, on_bind, Source.open?, on_pure]
  dsimp only
  rw [on_bind, hopen]
  dsimp only
  rw [on_bind, hchild]

end Simple

/-- What building a plan ends with when its command cannot be assembled: a tolerant one only says
why. -/
def Plan.failed (plan : Plan Utility) (failure : Failure) : Except Failure Job :=
  match plan, failure with
  | .tolerant _, .complaint cause => .ok (.forward cause.message 1)
  | _, failure => .error failure

namespace Line

theorem on_build_tolerated {simple : Simple Utility} {failure : Failure} {w w' : World}
    (h : simple.assemble.on w = (.error failure, w')) (c : Char) :
    ((tolerated c (.simple simple)).build .both).on w =
      ((tolerated c (.simple simple)).failed failure, w') := by
  have hsimple : ((Plan.simple simple).assemble .both).on w = (.error failure, w') := h
  unfold tolerated
  split_ifs
  · rw [Plan.build_both, Plan.on_assemble_tolerant, hsimple]
    cases failure <;> rfl
  · rw [Plan.build_both, hsimple]
    rfl

private theorem Command.exists_wrapAll {κ : Type} {catalog : Catalog κ} {w : World}
    {opening : Opening} {name : Word} {ending : Ending} {p : Plan κ}
    (h : (Command.mk opening name ending).plan catalog w = .ok p) :
    ∃ c command flags operands, p = tolerated c (.simple
      (wrapAll (opening.redirects ++ ending.redirects) (.command command flags operands))) := by
  rcases names_or_fails catalog w name.value with
    ⟨failure, hfails⟩ | ⟨c, rest, command, hvalue, hcommand⟩
  · rw [hfails opening name ending rfl] at h
    cases h
  · obtain ⟨-, flags, operands, -, -, rfl⟩ :=
      (Command.plan_eq_ok_iff_assigned hvalue hcommand).mp h
    exact ⟨c, command, flags, operands, rfl⟩

/-- A line of one command with a redirect from a file that is not there and one to another file. If
the redirect from the missing file comes last, it is not found and no file has changed. If it comes
first, the other file is opened before: if that fails, its failure is the one that is seen and no
file has changed; if not, the missing file is not found, or its path leads through the file that
has just been created, and all files are as they were only if that file was there and empty. -/
theorem build_missing_source {line : Text} {opening : Opening} {name : Word} {ending : Ending}
    {spaces : List Text} {source sink : Word} {gap gap' : Option Text} {w : World}
    {p : Plan Utility}
    (hread : Script.ofLine? line = some ⟨some (.command (.mk opening name ending)), spaces⟩)
    (hplan : plan utilities w line = .ok p)
    (hmissing : w.openToRead source.text = .error (.os ⟨.noEntry, some source.text⟩)) :
    (opening.redirects ++ ending.redirects = [.mk .output gap sink, .mk .input gap' source] →
      ∃ cause : Complaint, cause.report.kind = .fileNotFound ∧
        (p.build .both).on w = (p.failed (.complaint cause), w)) ∧
    (opening.redirects ++ ending.redirects = [.mk .input gap' source, .mk .output gap sink] →
      match w.openToWrite sink.text with
      | .error failure => (p.build .both).on w =
          (p.failed (Action.callFailure .redirectFailed failure), w)
      | .ok (place, w') => w'.openToRead source.text ≠ .ok place →
          (∃ cause : Complaint, (p.build .both).on w = (p.failed (.complaint cause), w') ∧
            (cause.report.kind = .fileNotFound ∨
              cause.report.kind = .redirect ∧ w.root.get? place = none)) ∧
          (w.SameFiles w' ↔ w.root.get? place = some (.file .empty))) := by
  rw [plan_of_command utilities w hread] at hplan
  obtain ⟨c, command, flags, operands, rfl⟩ := Command.exists_wrapAll hplan
  constructor
  · intro hredirects
    rw [hredirects]
    exact ⟨.redirectFailed ⟨.noEntry, some source.text⟩, rfl,
      on_build_tolerated (Simple.on_assemble_of_source_error hmissing _ _) c⟩
  · intro hredirects
    rw [hredirects]
    cases hopen : w.openToWrite sink.text with
    | error failure => exact on_build_tolerated (Simple.on_assemble_of_sink_error hopen _) c
    | ok opened =>
        obtain ⟨place, w'⟩ := opened
        intro hother
        have htakes := World.takes_of_openToWrite hopen
        obtain ⟨-, -, rfl⟩ := World.openToWrite_eq_ok hopen
        refine ⟨?_, World.sameFiles_withFile_iff htakes⟩
        -- what is said of the missing file is said after the other one has been opened
        have hbuild : ∀ errno, (w.withFile place .empty).openToRead source.text =
            .error (.os ⟨errno, some source.text⟩) → _ := fun errno herror =>
          on_build_tolerated (Simple.on_assemble_of_child_error hopen
            (Simple.on_assemble_of_source_error herror none (.command command flags operands))) c
        rcases World.openToRead_withFile_of_noEntry htakes .empty hmissing with
          hstill | ⟨hnone, hnew | hthrough⟩
        · exact ⟨_, hbuild .noEntry hstill, .inl rfl⟩
        · exact absurd hnew hother
        · exact ⟨_, hbuild .notDirectory hthrough, .inr ⟨rfl, hnone⟩⟩

section Shelf

open Plan (shelf)

theorem shelf_openToWrite :
    shelf.openToWrite ['b'] = .ok ([['b']], shelf.withFile [['b']] .empty) := by cbv

theorem read_missing_last : Script.ofLine? "cat > b < m".toList = some ⟨some (.command (.mk .done
    (.chars "cat".toList) (.redirect [[' ']] (.mk .output (some [' ']) (.chars ['b']))
      (.redirect [[' ']] (.mk .input (some [' ']) (.chars ['m'])) .done)))), []⟩ := by
  decide +kernel

theorem read_missing_first : Script.ofLine? "cat < m > b".toList = some ⟨some (.command (.mk .done
    (.chars "cat".toList) (.redirect [[' ']] (.mk .input (some [' ']) (.chars ['m']))
      (.redirect [[' ']] (.mk .output (some [' ']) (.chars ['b'])) .done)))), []⟩ := by
  decide +kernel

private theorem plan_missing_last : plan utilities shelf "cat > b < m".toList = .ok (.simple
    (.redirect (some ['m']) none (.redirect none (some ['b']) (.command .cat [] [])))) := by
  rw [plan_of_command _ _ read_missing_last, Command.plan_utility .cat rfl]
  cbv

theorem plan_missing_first : plan utilities shelf "cat < m > b".toList = .ok (.simple
    (.redirect none (some ['b']) (.redirect (some ['m']) none (.command .cat [] [])))) := by
  rw [plan_of_command _ _ read_missing_first, Command.plan_utility .cat rfl]
  cbv

/-- A missing file `m` and a file `b` with something in it, in both orders. -/
theorem build_missing_source_cat :
    (∃ cause : Complaint, cause.report.kind = .fileNotFound ∧
      ((Plan.simple (.redirect (some ['m']) none (.redirect none (some ['b'])
        (.command .cat [] [])))).build .both).on shelf = (.error (.complaint cause), shelf)) ∧
    (∃ cause : Complaint, ((Plan.simple (.redirect none (some ['b']) (.redirect (some ['m']) none
        (.command .cat [] [])))).build .both).on shelf =
          (.error (.complaint cause), shelf.withFile [['b']] .empty) ∧
      (cause.report.kind = .fileNotFound ∨
        cause.report.kind = .redirect ∧ shelf.root.get? [['b']] = none)) ∧
    (shelf.SameFiles (shelf.withFile [['b']] .empty) ↔
      shelf.root.get? [['b']] = some (.file .empty)) := by
  have hmissing : shelf.openToRead (Word.chars ['m']).text =
      .error (.os ⟨.noEntry, some (Word.chars ['m']).text⟩) := by cbv
  have hlast := (build_missing_source read_missing_last plan_missing_last hmissing).1 rfl
  have hfirst := (build_missing_source read_missing_first plan_missing_first hmissing).2 rfl
  have hwrite : shelf.openToWrite (Word.chars ['b']).text =
      .ok ([['b']], shelf.withFile [['b']] .empty) := shelf_openToWrite
  have hother : (shelf.withFile [['b']] .empty).openToRead ['m'] ≠ .ok [['b']] := by
    have hmiss : (shelf.withFile [['b']] .empty).openToRead ['m'] =
        .error (.os ⟨.noEntry, some ['m']⟩) := by cbv
    rw [hmiss]
    rintro ⟨⟩
  rw [hwrite] at hfirst
  obtain ⟨hcause, hsame⟩ := hfirst hother
  exact ⟨hlast, hcause, hsame⟩

/-- The file to write has lost what was in it by the time the missing file is looked for. -/
theorem build_missing_source_first :
    plan utilities shelf "cat < m > b".toList = .ok (.simple (.redirect none (some ['b'])
        (.redirect (some ['m']) none (.command .cat [] [])))) ∧
      ((Plan.simple (.redirect none (some ['b']) (.redirect (some ['m']) none
        (.command .cat [] [])))).build .both).on shelf =
          (.error (.complaint (.redirectFailed ⟨.noEntry, some ['m']⟩)),
            shelf.withFile [['b']] .empty) ∧
      shelf.content [['b']] = Content.ofText "old".toList ∧
      (shelf.withFile [['b']] .empty).content [['b']] = .empty := by
  have hmiss : (shelf.withFile [['b']] .empty).openToRead ['m'] =
      .error (.os ⟨.noEntry, some ['m']⟩) := by cbv
  exact ⟨plan_missing_first, on_build_tolerated (Simple.on_assemble_of_child_error
    shelf_openToWrite (Simple.on_assemble_of_source_error hmiss none _)) 'c', rfl, by cbv⟩

end Shelf

end Line

end CommandShell
