import CommandShell.Files.Content
import CommandShell.Files.World
import CommandShell.Proofs.Text.Fields

/-!
# Worlds in order

A world is in order if no call is bound to fail, no name has a NUL character in it, and all files
hold text. Putting a file in its place changes nothing elsewhere. So opening files, changing the
working directory, and writing to files that are empty leave a world in order. Two texts written
over each other need not be text any more.
-/

namespace CommandShell

/-! ## Trees of files -/

theorem Entries.get?_cons (name other : Text) (node : Node) (entries : Entries) :
    Entries.get? other ((name, node) :: entries) =
      if name = other then some node else Entries.get? other entries := by
  unfold Entries.get?
  rw [List.find?_cons]
  split <;> simp_all

theorem Entries.get?_insert (name other : Text) (node : Node) (entries : Entries) :
    Entries.get? other (Entries.insert name node entries) =
      if name = other then some node else Entries.get? other entries := by
  induction entries with
  | nil => exact get?_cons name other node []
  | cons entry entries ih =>
    obtain ⟨first, found⟩ := entry
    rw [Entries.insert]
    by_cases hname : name = other
    · rw [if_pos hname]
      split_ifs with hfirst hle
      · rw [get?_cons, if_pos hname]
      · rw [get?_cons, if_neg (hname ▸ hfirst), ih, if_pos hname]
      · rw [get?_cons, if_pos hname]
    · rw [if_neg hname]
      split_ifs with hfirst hle
      · rw [get?_cons, if_neg hname, get?_cons, if_neg (hfirst ▸ hname)]
      · rw [get?_cons, get?_cons, ih, if_neg hname]
      · rw [get?_cons, if_neg hname]

variable {content : ByteArray} {node root : Node} {other place : Location} {path : Text}

namespace Node

theorem get?_cons_dir (name : Text) (place : Location) (entries : Entries) :
    (dir entries).get? (name :: place) = (Entries.get? name entries).bind (get? place) := rfl

theorem get?_cons_insert (name other : Text) (place : Location) (node : Node) (entries : Entries) :
    (dir (Entries.insert name node entries)).get? (other :: place) =
      if name = other then node.get? place else (dir entries).get? (other :: place) := by
  rw [get?_cons_dir, Entries.get?_insert]
  split_ifs <;> rfl

theorem get?_append (place later : Location) (root : Node) :
    root.get? (place ++ later) = (root.get? place).bind (get? later) := by
  induction place generalizing root with
  | nil => rfl
  | cons name place ih =>
    rw [List.cons_append, get?, get?, Option.bind_assoc]
    congr 1
    funext child
    exact ih child

theorem get?_file (h : (file content).get? place = some node) :
    place = [] ∧ node = file content := by
  cases place with
  | nil =>
    cases h
    exact ⟨rfl, rfl⟩
  | cons name place => cases h

/-- What is found in a tree after a file has been put somewhere: the file, a directory on the way
to it, or what was there before. -/
theorem get?_put (h : (put (.file content) place root).get? other = some node) :
    other = place ∧ node = .file content ∨ other <+: place ∧ node.isDir = true ∨
      root.get? other = some node := by
  induction place generalizing other root with
  | nil => exact .inl (get?_file h)
  | cons name place ih =>
    cases root with
    | file old => exact .inr (.inr h)
    | dir entries =>
      cases other with
      | nil =>
        refine .inr (.inl ⟨List.nil_prefix, ?_⟩)
        unfold put at h
        split at h <;> cases h <;> rfl
      | cons first other =>
        unfold put at h
        split at h
        · next child rest hchild =>
            rw [get?_cons_insert] at h
            split_ifs at h with hfirst
            · subst hfirst
              rw [get?_cons_dir, hchild, List.cons_prefix_cons, List.cons.injEq]
              simpa using ih h
            · exact .inr (.inr h)
        · next hchild =>
            rw [get?_cons_insert] at h
            split_ifs at h with hfirst
            · obtain ⟨rfl, rfl⟩ := get?_file h
              exact .inl ⟨by rw [hfirst], rfl⟩
            · exact .inr (.inr h)
        · exact .inr (.inr h)

theorem get?_put_self (h : (put (.file content) place root).get? place = some node) :
    node = .file content := by
  induction place generalizing root with
  | nil => exact (get?_file h).2
  | cons name place ih =>
    cases root with
    | file old => cases h
    | dir entries =>
      unfold put at h
      split at h
      · rw [get?_cons_insert, if_pos rfl] at h
        exact ih h
      · rw [get?_cons_insert, if_pos rfl] at h
        exact (get?_file h).2
      · next hnone =>
          rw [get?_cons_dir, hnone] at h
          cases h

def HasDir (root : Node) (place : Location) : Prop :=
  ∃ entries, root.get? place = some (.dir entries)

/-- A file that is put where no directory is leaves all directories as they are, but for their
entries. -/
theorem get?_of_put {entries : Entries}
    (h : (put (.file content) place root).get? other = some (.dir entries)) :
    ∃ entries', root.get? other = some (.dir entries') := by
  induction place generalizing other root with
  | nil => cases (get?_file h).2
  | cons name place ih =>
    cases root with
    | file old => exact ⟨entries, h⟩
    | dir old =>
      cases other with
      | nil => exact ⟨old, rfl⟩
      | cons first other =>
        unfold put at h
        split at h
        · next child rest hchild =>
            rw [get?_cons_insert] at h
            split_ifs at h with hfirst
            · subst hfirst
              rw [get?_cons_dir, hchild]
              exact ih h
            · exact ⟨entries, h⟩
        · rw [get?_cons_insert] at h
          split_ifs at h with hfirst
          · cases (get?_file h).2
          · exact ⟨entries, h⟩
        · exact ⟨entries, h⟩

end Node

/-! ## Paths -/

def NulFree (place : Location) : Prop := ∀ name ∈ place, '\x00' ∉ name

theorem NulFree.append {later : Location} (h : NulFree place) (hlater : NulFree later) :
    NulFree (place ++ later) := fun name hname =>
  (List.mem_append.mp hname).elim (h name) (hlater name)

theorem NulFree.of_subset {later : Location} (h : NulFree place) (hsub : later ⊆ place) :
    NulFree later := fun name hname => h name (hsub hname)

namespace Path

theorem nulFree_names (h : '\x00' ∉ path) : NulFree (names path) :=
  fun _ hname hnul => h ((Text.infix_of_mem_fields hname).subset hnul)

variable {name : Text} {place' cwd : Location} {steps : List Text} {root' : Node}

private theorem nulFree_step (h : NulFree place) (hname : '\x00' ∉ name)
    (hstep : step root place name = .ok place') : NulFree place' := by
  unfold step at hstep
  split at hstep
  · cases hstep
  · cases hstep
  · split_ifs at hstep <;> cases hstep
    · exact h
    · exact h.of_subset (List.dropLast_subset place)
    · exact h.append (by simpa [NulFree] using hname)

theorem nulFree_follow (h : NulFree place) (hsteps : NulFree steps)
    (hfollow : follow root place steps = .ok place') : NulFree place' := by
  unfold follow at hfollow
  induction steps generalizing place with
  | nil =>
    cases hfollow
    exact h
  | cons name steps ih =>
    rw [List.foldlM_cons] at hfollow
    cases hstep : step root place name with
    | error errno =>
      rw [hstep] at hfollow
      cases hfollow
    | ok next =>
      rw [hstep] at hfollow
      exact ih (nulFree_step h (hsteps name List.mem_cons_self) hstep)
        (hsteps.of_subset (List.subset_cons_self name steps)) hfollow

theorem nulFree_start (h : NulFree cwd) (path : Text) : NulFree (start cwd path) := by
  unfold start
  split
  · exact fun _ hname => nomatch hname
  · exact h

theorem nulFree_resolve (h : NulFree cwd) (hpath : '\x00' ∉ path)
    (hresolve : resolve root cwd path = .ok place) : NulFree place := by
  have hsteps : NulFree (steps path) := by
    unfold steps
    split
    · exact (nulFree_names hpath).append (by simp [NulFree])
    · exact nulFree_names hpath
  unfold resolve at hresolve
  cases hcheck : check path with
  | error errno =>
    rw [hcheck] at hresolve
    cases hresolve
  | ok _ =>
    rw [hcheck] at hresolve
    exact nulFree_follow (nulFree_start h path) hsteps hresolve

theorem resolveNew_eq_ok :
    resolveNew root cwd path = .ok place ↔ ∃ dir name entries,
      check path = .ok () ∧ (names path).getLast? = some name ∧
      follow root (start cwd path) (names path).dropLast = .ok dir ∧
      (name ≠ ['.'] ∧ name ≠ ['.', '.']) ∧ root.get? dir = some (.dir entries) ∧
      endsInSlash path = false ∧ ¬ Text.byteLength name > maxName ∧ place = dir ++ [name] := by
  unfold resolveNew
  dsimp only [bind, Except.bind]
  rcases check path with errno | _
  · simp
  rcases (names path).getLast? with _ | name
  · simp
  rcases follow root (start cwd path) (names path).dropLast with errno | dir
  · simp
  simp only [Except.ok.injEq, Option.some.injEq, exists_and_left, exists_eq_left', true_and]
  by_cases hdots : name = ['.'] ∨ name = ['.', '.']
  · rcases hdots with rfl | rfl <;> cases step root dir _ <;> simp
  obtain ⟨hdot, hdots⟩ := not_or.1 hdots
  rcases root.get? dir with _ | (content | entries)
  · simp [hdot, hdots]
  · simp [hdot, hdots]
  by_cases hslash : endsInSlash path = true
  · simp [hdot, hdots, hslash]
  by_cases hlength : Text.byteLength name > maxName
  · simp [hdot, hdots, hslash, hlength]
  · simpa [hdot, hdots, hslash, hlength, pure, Except.pure] using eq_comm

theorem nulFree_resolveNew (h : NulFree cwd) (hpath : '\x00' ∉ path)
    (hresolve : resolveNew root cwd path = .ok place) : NulFree place := by
  obtain ⟨dir, name, -, -, hlast, hfollow, -, -, -, -, rfl⟩ := resolveNew_eq_ok.1 hresolve
  have hnames := nulFree_names hpath
  refine (nulFree_follow (nulFree_start h path) (hnames.of_subset ?_) hfollow).append ?_
  · exact List.dropLast_subset _
  · simpa [NulFree] using hnames name (List.mem_of_getLast? hlast)

theorem step_eq_ok {next : Location} :
    step root place name = .ok next ↔ ∃ entries, root.get? place = some (.dir entries) ∧
      (name = ['.'] ∧ next = place ∨
        name ≠ ['.'] ∧ name = ['.', '.'] ∧ next = place.dropLast ∨
        name ≠ ['.'] ∧ name ≠ ['.', '.'] ∧ ¬ Text.byteLength name > maxName ∧
          (Entries.get? name entries).isSome = true ∧ next = place ++ [name]) := by
  unfold step
  rcases root.get? place with _ | (content | entries)
  · simp
  · simp
  · simp only [Option.some.injEq, Node.dir.injEq, exists_eq_left']
    by_cases hdot : name = ['.']
    · simpa [hdot, pure, Except.pure] using eq_comm
    by_cases hdots : name = ['.', '.']
    · simpa [hdots, pure, Except.pure] using eq_comm
    by_cases hlength : Text.byteLength name > maxName
    · simp [hdot, hdots, hlength]
    by_cases hentry : (Entries.get? name entries).isSome = true
    · simpa [hdot, hdots, hlength, hentry, pure, Except.pure] using eq_comm
    · simp [hdot, hdots, hlength, hentry]

theorem follow_cons :
    follow root place (name :: steps) = .ok place' ↔
      ∃ next, step root place name = .ok next ∧ follow root next steps = .ok place' := by
  unfold follow
  rw [List.foldlM_cons]
  cases step root place name with
  | error errno => exact ⟨nofun, fun ⟨_, h, _⟩ => nomatch h⟩
  | ok next => exact ⟨fun h => ⟨next, rfl, h⟩, fun ⟨_, h, h'⟩ => by cases h; exact h'⟩

theorem follow_of_dirs (hdirs : ∀ place, root'.HasDir place → root.HasDir place)
    (h : follow root' place steps = .ok place') (hdir : root'.HasDir place') :
    follow root place steps = .ok place' ∧ root'.HasDir place := by
  -- A step to an entry needs the entry in the other tree. It is there because the rest of the way
  -- starts at a directory, so the induction hands on that fact as well.
  induction steps generalizing place with
  | nil =>
    cases h
    exact ⟨rfl, hdir⟩
  | cons name steps ih =>
    obtain ⟨next, hstep, hfollow⟩ := follow_cons.mp h
    obtain ⟨hnext, hnextDir⟩ := ih hfollow
    obtain ⟨here, hhere, hcases⟩ := step_eq_ok.mp hstep
    obtain ⟨old, hold⟩ := hdirs place ⟨here, hhere⟩
    refine ⟨follow_cons.mpr ⟨next, step_eq_ok.mpr ⟨old, hold, ?_⟩, hnext⟩, here, hhere⟩
    rcases hcases with hstay | hup | ⟨hdot, hdots, hlength, -, rfl⟩
    · exact .inl hstay
    · exact .inr (.inl hup)
    · obtain ⟨below, hbelow⟩ := hdirs _ hnextDir
      refine .inr (.inr ⟨hdot, hdots, hlength, ?_, rfl⟩)
      rw [Node.get?_append, hold] at hbelow
      cases hentry : Entries.get? name old with
      | none =>
        rw [Option.bind_some, Node.get?_cons_dir, hentry] at hbelow
        cases hbelow
      | some node => rfl

theorem resolve_of_dirs (hdirs : ∀ place, root'.HasDir place → root.HasDir place)
    (h : resolve root' cwd path = .ok place) (hdir : root'.HasDir place) :
    resolve root cwd path = .ok place := by
  unfold resolve at h ⊢
  cases hcheck : check path with
  | error errno =>
    rw [hcheck] at h
    cases h
  | ok _ =>
    rw [hcheck] at h
    exact (follow_of_dirs hdirs h hdir).1

theorem resolveNew_of_dirs (hdirs : ∀ place, root'.HasDir place → root.HasDir place)
    (h : resolveNew root' cwd path = .ok place) : resolveNew root cwd path = .ok place := by
  obtain ⟨dir, name, entries, hcheck, hlast, hfollow, hdots, hdir, hrest⟩ := resolveNew_eq_ok.1 h
  obtain ⟨old, hold⟩ := hdirs dir ⟨entries, hdir⟩
  exact resolveNew_eq_ok.2
    ⟨dir, name, old, hcheck, hlast, (follow_of_dirs hdirs hfollow ⟨entries, hdir⟩).1, hdots, hold,
      hrest⟩

theorem resolveNew_of_put {file : Location}
    (h : resolveNew (Node.put (.file content) file root) cwd path = .ok place) :
    resolveNew root cwd path = .ok place :=
  resolveNew_of_dirs (fun _ hdir => hdir.elim fun _ => Node.get?_of_put) h

end Path

/-! ## Worlds -/

namespace World

def withFile (w : World) (place : Location) (content : ByteArray) : World :=
  { w with root := Node.put (.file content) place w.root }

theorem content_withFile (w : World) (place other : Location) (content : ByteArray) :
    other = place ∧ (w.withFile place content).content other = content ∨
      (w.withFile place content).content other = w.content other ∨
      (w.withFile place content).content other = .empty := by
  unfold World.content withFile
  dsimp only
  rcases hget : (Node.put (.file content) place w.root).get? other with _ | (found | entries)
  · exact .inr (.inr rfl)
  · rcases Node.get?_put hget with ⟨hother, hnode⟩ | ⟨-, hdir⟩ | hold
    · cases hnode
      exact .inl ⟨hother, rfl⟩
    · cases hdir
    · rw [hold]
      exact .inr (.inl rfl)
  · exact .inr (.inr rfl)

theorem content_withFile_of_ne {w : World} (content : ByteArray) (hne : other ≠ place)
    (hempty : w.content other = .empty) : (w.withFile place content).content other = .empty := by
  rcases content_withFile w place other content with ⟨h, -⟩ | h | h
  · exact absurd h hne
  · exact h.trans hempty
  · exact h

@[simp] theorem content_withFile_self (w : World) (place : Location) :
    (w.withFile place .empty).content place = .empty := by
  unfold World.content withFile
  dsimp only
  split
  · next found hget =>
      cases Node.get?_put_self hget
      rfl
  · rfl

/-- No call is bound to fail, no name has a NUL character, and, if it is asked for, all files hold
text. -/
structure InOrder (textual : Prop) (w : World) : Prop where
  faultless : w.faults = []
  names : ∀ place node, w.root.get? place = some node → NulFree place
  cwd : NulFree w.cwd
  holdsText : textual → ∀ place, (Content.text? (w.content place)).isSome = true

section InOrder

variable {textual : Prop} {w w' : World}

theorem InOrder.withFile (h : w.InOrder textual) {place : Location} {content : ByteArray}
    (hplace : NulFree place) (hcontent : textual → (Content.text? content).isSome = true) :
    (w.withFile place content).InOrder textual where
  faultless := h.faultless
  names := by
    intro other node hget
    rcases Node.get?_put hget with ⟨rfl, -⟩ | ⟨hbefore, -⟩ | hold
    · exact hplace
    · exact hplace.of_subset hbefore.subset
    · exact h.names other node hold
  cwd := h.cwd
  holdsText := by
    intro ht other
    rcases content_withFile w place other content with ⟨-, hnew⟩ | hold | hempty
    · rw [hnew]
      exact hcontent ht
    · rw [hold]
      exact h.holdsText ht other
    · rw [hempty]
      rfl

variable {α : Type} {call : Call} {work : Except Errno α}

theorem onPath_eq_ok {a : α} :
    w.onPath call path work = .ok a ↔ w.fault? call path = none ∧ '\x00' ∉ path ∧ work = .ok a := by
  unfold onPath
  cases w.fault? call path with
  | some errno => exact ⟨nofun, nofun⟩
  | none =>
    by_cases hnul : '\x00' ∈ path
    · simp [hnul]
    · cases work <;> simp [hnul, pure, Except.pure]

theorem onPath_eq_nul (h : w.onPath call path work = .error .nul) : '\x00' ∈ path := by
  unfold onPath at h
  split at h
  · cases h
  · split_ifs at h with hnul
    · simpa using hnul
    · cases work <;> cases h

theorem onPath_eq_os {error : OsError} (h : w.onPath call path work = .error (.os error)) :
    ∃ errno, error = ⟨errno, some path⟩ := by
  unfold onPath at h
  split at h
  · cases h
    exact ⟨_, rfl⟩
  · split_ifs at h
    · cases h
    · cases work <;> cases h
      exact ⟨_, rfl⟩

theorem openToWrite_eq_ok (h : w.openToWrite path = .ok (place, w')) :
    '\x00' ∉ path ∧ Path.resolveNew w.root w.cwd path = .ok place ∧
      w' = w.withFile place .empty := by
  obtain ⟨-, hpath, h⟩ := onPath_eq_ok.1 h
  cases hresolve : Path.resolveNew w.root w.cwd path with
  | error errno =>
    rw [hresolve] at h
    cases h
  | ok found =>
    rw [hresolve] at h
    dsimp only [bind, Except.bind] at h
    split at h <;> cases h
    exact ⟨hpath, rfl, rfl⟩

/-- A file that is opened for writing is empty, and those that were empty stay so. -/
theorem InOrder.openToWrite (h : w.InOrder textual) (hopen : w.openToWrite path = .ok (place, w')) :
    w'.InOrder textual ∧ NulFree place ∧ w'.content place = .empty ∧
      ∀ other, w.content other = .empty → w'.content other = .empty := by
  obtain ⟨hpath, hresolve, rfl⟩ := openToWrite_eq_ok hopen
  have hplace := Path.nulFree_resolveNew h.cwd hpath hresolve
  refine ⟨h.withFile hplace fun _ => rfl, hplace, content_withFile_self w place, ?_⟩
  intro other hempty
  by_cases hother : other = place
  · rw [hother, content_withFile_self]
  · exact content_withFile_of_ne .empty hother hempty

theorem find_eq_ok :
    w.find path = .ok (place, node) ↔
      Path.resolve w.root w.cwd path = .ok place ∧ w.root.get? place = some node := by
  unfold World.find
  cases Path.resolve w.root w.cwd path with
  | error errno => exact ⟨nofun, nofun⟩
  | ok found =>
    dsimp only [bind, Except.bind]
    constructor
    · intro h
      split at h <;> cases h
      next hget => exact ⟨rfl, hget⟩
    · rintro ⟨⟨⟩, hget⟩
      rw [hget]
      rfl

def LeadsTo (w : World) (path : Text) (place : Location) : Prop :=
  '\x00' ∉ path ∧ ∃ entries, w.find path = .ok (place, .dir entries)

theorem isDir_iff : w.isDir path = true ↔ ∃ place, w.LeadsTo path place := by
  unfold isDir find? LeadsTo
  by_cases hnul : '\x00' ∈ path
  · simp [hnul]
  · rcases w.find path with errno | ⟨place, content | entries⟩ <;> simp [hnul, Node.isDir]

/-- A directory can be entered, unless that is bound to fail. -/
theorem enter_eq_ok : w.enter path = .ok w' ↔
    w.fault? .enter path = none ∧ ∃ place, w.LeadsTo path place ∧ w' = { w with cwd := place } := by
  unfold enter
  rw [onPath_eq_ok]
  unfold LeadsTo
  refine and_congr_right fun _ => ?_
  rcases w.find path with errno | ⟨place, content | entries⟩ <;>
    simp [bind, Except.bind, pure, Except.pure, eq_comm]

theorem InOrder.enter (h : w.InOrder textual) (henter : w.enter path = .ok w') :
    w'.InOrder textual := by
  obtain ⟨-, place, ⟨hpath, entries, hfind⟩, rfl⟩ := enter_eq_ok.1 henter
  exact ⟨h.faultless, h.names, Path.nulFree_resolve h.cwd hpath (find_eq_ok.1 hfind).1,
    h.holdsText⟩

@[simp] theorem text?_ofText (s : Text) : (Content.text? (Content.ofText s)).isSome = true := by
  unfold Content.text? Content.characters? Content.ofText
  rw [String.toByteArray_ofList, List.utf8Decode?_utf8Encode]
  rfl

theorem overwrite_of_empty (h : w.content place = .empty) (bytes : ByteArray) :
    w.overwrite place bytes = w.withFile place bytes := by
  have hbytes : bytes ++ ByteArray.empty.extract bytes.size ByteArray.empty.size = bytes := by
    rw [ByteArray.extract_eq_empty_iff.mpr (by simp), ByteArray.append_empty]
  unfold overwrite withFile
  dsimp only
  rw [h, hbytes]

theorem InOrder.overwrite (h : w.InOrder textual) (hplace : NulFree place)
    (hempty : textual → w.content place = .empty) (s : Text) :
    (w.overwrite place (Content.ofText s)).InOrder textual := by
  by_cases ht : textual
  · rw [overwrite_of_empty (hempty ht)]
    exact h.withFile hplace fun _ => text?_ofText s
  · exact h.withFile hplace fun hcontra => absurd hcontra ht

theorem content_overwrite (hne : other ≠ place) (hempty : w.content other = .empty)
    (bytes : ByteArray) : (w.overwrite place bytes).content other = .empty :=
  content_withFile_of_ne _ hne hempty

end InOrder

end World

end CommandShell
