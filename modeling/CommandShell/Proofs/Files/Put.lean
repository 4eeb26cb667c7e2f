import CommandShell.Proofs.Files.Worlds

/-!
# Files in their places

A file can be put where a directory has room for it. That leaves what is elsewhere alone, so a
path that leads somewhere, or to a place for a new file, does so afterwards. A file that has been
emptied stays as it is when it is emptied again, whatever has been put elsewhere in between.
-/

namespace CommandShell

/-! ## Trees of files -/

@[simp] theorem Text.le_iff (s t : Text) : Text.le s t = true ↔ s ≤ t := by
  simp [Text.le]

theorem Text.sorted_mergeSort (texts : List Text) :
    (texts.mergeSort Text.le).Pairwise (· ≤ ·) := by
  have hle : (texts.mergeSort Text.le).Pairwise (Text.le · ·) := List.pairwise_mergeSort
    (fun a b c => by simpa only [Text.le_iff] using le_trans)
    (fun a b => by simpa using le_total a b) texts
  exact hle.imp (Text.le_iff _ _).1

variable {entries : Entries} {place : Location}

namespace Entries

@[simp] theorem insert_insert_self (name : Text) (old new : Node) (entries : Entries) :
    insert name new (insert name old entries) = insert name new entries := by
  induction entries with
  | nil => simp only [insert, if_pos]
  | cons entry entries ih =>
    obtain ⟨first, found⟩ := entry
    by_cases hfirst : first = name
    · simp only [insert, if_pos hfirst, if_pos]
    · by_cases hle : Text.le first name = true
      · simp only [insert, if_neg hfirst, if_pos hle, ih]
      · simp only [insert, if_neg hfirst, if_neg hle, if_pos]

theorem insert_insert_of_ne {name other : Text} {node : Node}
    (h : insert name node entries = entries) (hne : other ≠ name) (added : Node) :
    insert name node (insert other added entries) = insert other added entries := by
  induction entries with
  | nil => cases h
  | cons entry entries ih =>
    obtain ⟨first, found⟩ := entry
    rw [insert] at h
    split_ifs at h with hfirst hle
    · cases h
      by_cases hlast : Text.le name other = true
      · simp only [insert, if_neg hne.symm, if_pos hlast, if_pos]
      · have hbefore : Text.le other name = true := by
          rw [Text.le_iff] at hlast ⊢
          exact Std.le_of_not_ge hlast
        simp only [insert, if_neg hne.symm, if_neg hlast, if_neg hne, if_pos hbefore, if_pos]
    · have hlater : insert name node entries = entries := (List.cons.inj h).2
      by_cases hsame : first = other
      · subst hsame
        simp only [insert, if_neg hfirst, if_pos hle, if_pos, hlater]
      · by_cases hlast : Text.le first other = true
        · simp only [insert, if_neg hsame, if_pos hlast, if_neg hfirst, if_pos hle, ih hlater]
        · have hbefore : Text.le other name = true := by
            rw [Text.le_iff] at hlast hle ⊢
            exact (Std.le_of_not_ge hlast).trans hle
          simp only [insert, if_neg hsame, if_neg hlast, if_neg hne, if_pos hbefore,
            if_neg hfirst, if_pos hle, hlater]
    · exact absurd (congrArg List.length h) (by simp)

end Entries

namespace Node

section Put

variable {name : Text} {entries : Entries}

theorem put_cons_of_some {child : Node} (h : Entries.get? name entries = some child) (new : Node)
    (place : Location) : put new (name :: place) (dir entries) =
      dir (Entries.insert name (put new place child) entries) := by
  rw [put.eq_def]
  simp only [h]

theorem put_singleton_of_none (h : Entries.get? name entries = none) (new : Node) :
    put new [name] (dir entries) = dir (Entries.insert name new entries) := by
  simp only [put, h]

theorem put_cons_of_none (h : Entries.get? name entries = none) (new : Node) (hplace : place ≠ []) :
    put new (name :: place) (dir entries) = dir entries := by
  obtain ⟨next, later, rfl⟩ := List.exists_cons_of_ne_nil hplace
  simp only [put, h]

theorem put_cons_insert (new node : Node) (place : Location) :
    put new (name :: place) (dir (Entries.insert name node entries)) =
      dir (Entries.insert name (put new place node) entries) := by
  have hget : Entries.get? name (Entries.insert name node entries) = some node := by
    rw [Entries.get?_insert, if_pos rfl]
  rw [put_cons_of_some hget, Entries.insert_insert_self]

theorem of_put_cons_eq_self {new : Node} {place : Location}
    (h : put new (name :: place) (dir entries) = dir entries) :
    match Entries.get? name entries with
    | some child => put new place child = child ∧ Entries.insert name child entries = entries
    | none => place ≠ [] := by
  cases hchild : Entries.get? name entries with
  | some child =>
    rw [put_cons_of_some hchild] at h
    have hinsert := dir.inj h
    have hget := Entries.get?_insert name name (put new place child) entries
    rw [hinsert, hchild, if_pos rfl] at hget
    have hsame : put new place child = child := (Option.some.inj hget).symm
    exact ⟨hsame, hsame ▸ hinsert⟩
  | none =>
    rintro rfl
    rw [put_singleton_of_none hchild] at h
    have hinsert := dir.inj h
    rw [← hinsert, Entries.get?_insert, if_pos rfl] at hchild
    cases hchild

end Put

theorem put_file (new : Node) (h : place ≠ []) (content : ByteArray) :
    put new place (file content) = file content := by
  obtain ⟨name, later, rfl⟩ := List.exists_cons_of_ne_nil h
  rw [put]

theorem put_cons_dir (new : Node) (name : Text) (place : Location) (entries : Entries) :
    put new (name :: place) (dir entries) = dir entries ∨
      ∃ node, put new (name :: place) (dir entries) = dir (Entries.insert name node entries) := by
  cases hchild : Entries.get? name entries with
  | some child => exact .inr ⟨_, put_cons_of_some hchild new place⟩
  | none =>
    cases place with
    | nil => exact .inr ⟨_, put_singleton_of_none hchild new⟩
    | cons next later => exact .inl (put_cons_of_none hchild new (List.cons_ne_nil _ _))

@[simp] theorem put_put_self (old new : ByteArray) (place : Location) (root : Node) :
    put (file new) place (put (file old) place root) = put (file new) place root := by
  induction place generalizing root with
  | nil => rfl
  | cons name place ih =>
    cases root with
    | file content => rfl
    | dir entries =>
      cases hchild : Entries.get? name entries with
      | some child => rw [put_cons_of_some hchild, put_cons_insert, ih, put_cons_of_some hchild]
      | none =>
        cases place with
        | nil =>
          rw [put_singleton_of_none hchild, put_cons_insert, put_singleton_of_none hchild]
          rfl
        | cons next later =>
          rw [put_cons_of_none hchild _ (List.cons_ne_nil next later)]

variable {root : Node}

theorem put_put_of_ne {old new : ByteArray} {other : Location}
    (h : put (file old) place root = root) (hne : other ≠ place) :
    put (file old) place (put (file new) other root) = put (file new) other root := by
  induction place generalizing other root with
  | nil =>
    rw [← h]
    exact (put_file _ hne old).symm
  | cons name place ih =>
    rcases other with _ | ⟨first, other⟩
    · exact put_file _ (List.cons_ne_nil name place) new
    cases root with
    | file content => rfl
    | dir entries =>
      have hplace := of_put_cons_eq_self h
      by_cases hfirst : first = name
      · subst hfirst
        have hrest : other ≠ place := fun heq => hne (heq ▸ rfl)
        cases hchild : Entries.get? first entries with
        | some child =>
          rw [hchild] at hplace
          rw [put_cons_of_some hchild, put_cons_insert, ih hplace.1 hrest]
        | none =>
          rw [hchild] at hplace
          cases other with
          | nil => rw [put_singleton_of_none hchild, put_cons_insert, put_file _ hplace]
          | cons next later =>
            rw [put_cons_of_none hchild _ (List.cons_ne_nil next later), h]
      · rcases put_cons_dir (file new) first other entries with hput | ⟨node, hput⟩
        · rw [hput, h]
        · have hget : Entries.get? name (Entries.insert first node entries) =
              Entries.get? name entries := by
            rw [Entries.get?_insert, if_neg hfirst]
          rw [hput]
          cases hchild : Entries.get? name entries with
          | some child =>
            rw [hchild] at hplace
            rw [put_cons_of_some (hget.trans hchild), hplace.1,
              Entries.insert_insert_of_ne hplace.2 hfirst]
          | none =>
            rw [hchild] at hplace
            exact put_cons_of_none (hget.trans hchild) _ hplace

/-- What is found before a file is put where no directory is, is found afterwards: a directory
with other entries, or the same file. -/
theorem get?_put_of_get? (content : ByteArray) {other : Location} {node : Node}
    (hplace : ∀ entries, root.get? place ≠ some (dir entries)) (h : root.get? other = some node) :
    ∃ node', (put (file content) place root).get? other = some node' ∧ node'.isDir = node.isDir ∧
      (other ≠ place → node.isDir = false → node' = node) := by
  induction place generalizing other root with
  | nil =>
    cases root with
    | dir entries => exact absurd rfl (hplace entries)
    | file old =>
      obtain ⟨rfl, rfl⟩ := get?_file h
      exact ⟨file content, rfl, rfl, fun hne => absurd rfl hne⟩
  | cons name place ih =>
    rcases root with old | entries
    · exact ⟨node, h, rfl, fun _ _ => rfl⟩
    rcases other with _ | ⟨first, other⟩
    · cases h
      rcases put_cons_dir (file content) name place entries with hput | ⟨node, hput⟩ <;>
        exact ⟨_, rfl, (congrArg isDir hput).trans rfl, fun _ => nofun⟩
    cases hchild : Entries.get? name entries with
    | none =>
      rcases put_cons_dir (file content) name place entries with hput | ⟨node', hput⟩
      · exact ⟨node, by rw [hput, h], rfl, fun _ _ => rfl⟩
      · have hfirst : name ≠ first := by
          rintro rfl
          rw [get?_cons_dir, hchild] at h
          cases h
        exact ⟨node, by rw [hput, get?_cons_insert, if_neg hfirst, h], rfl, fun _ _ => rfl⟩
    | some child =>
      rw [put_cons_of_some hchild, get?_cons_insert]
      by_cases hfirst : name = first
      · subst hfirst
        rw [get?_cons_dir, hchild] at h
        obtain ⟨node', hnode', hdir, hsame⟩ := ih (fun entries' hget => hplace entries' (by
          rw [get?_cons_dir, hchild]
          exact hget)) h
        rw [if_pos rfl]
        exact ⟨node', hnode', hdir, fun hne => hsame fun heq => hne (heq ▸ rfl)⟩
      · rw [if_neg hfirst]
        exact ⟨node, h, rfl, fun _ _ => rfl⟩

theorem get?_append_singleton (h : root.get? place = some (dir entries)) (name : Text) :
    root.get? (place ++ [name]) = Entries.get? name entries := by
  rw [get?_append, h, Option.bind_some, get?_cons_dir]
  cases Entries.get? name entries <;> rfl

/-- A place for a file: a directory has room for it, and no directory is there. -/
structure Takes (root : Node) (place : Location) : Prop where
  parent : ∃ above name entries, place = above ++ [name] ∧ root.get? above = some (dir entries)
  not_dir : ∀ entries, root.get? place ≠ some (dir entries)

namespace Takes

variable {root : Node} {place other : Location}

theorem get?_dir (h : root.Takes place) (content : ByteArray)
    (hdir : root.get? other = some (dir entries)) :
    ∃ entries', (put (file content) place root).get? other = some (dir entries') := by
  obtain ⟨node, hget, hnode, -⟩ := get?_put_of_get? content h.not_dir hdir
  cases node with
  | file _ => cases hnode
  | dir entries' => exact ⟨entries', hget⟩

theorem get?_put (h : root.Takes place) (content : ByteArray) :
    (put (file content) place root).get? place = some (file content) := by
  obtain ⟨⟨above, name, entries, rfl, habove⟩, -⟩ := h
  induction above generalizing root with
  | nil =>
    cases habove
    rw [List.nil_append]
    cases hchild : Entries.get? name entries with
    | none => rw [put_singleton_of_none hchild, get?_cons_insert, if_pos rfl]; rfl
    | some child => rw [put_cons_of_some hchild, get?_cons_insert, if_pos rfl]; rfl
  | cons first above ih =>
    rcases root with old | entries'
    · cases habove
    rw [get?_cons_dir] at habove
    obtain ⟨child, hchild, habove⟩ := Option.bind_eq_some_iff.1 habove
    rw [List.cons_append, put_cons_of_some hchild, get?_cons_insert, if_pos rfl]
    exact ih habove

theorem put (h : root.Takes place) (hother : root.Takes other) (content : ByteArray) :
    (Node.put (file content) other root).Takes place where
  parent := by
    obtain ⟨above, name, entries, rfl, habove⟩ := h.parent
    obtain ⟨entries', hput⟩ := hother.get?_dir content habove
    exact ⟨above, name, entries', rfl, hput⟩
  not_dir entries hput := by
    obtain ⟨entries', hget⟩ := get?_of_put hput
    exact h.not_dir entries' hget

end Takes

end Node

/-! ## Paths -/

namespace Path

section Put

variable {root : Node} {file : Location} (hfile : root.Takes file) (content : ByteArray)
include hfile

theorem step_put {next : Location} {name : Text} (h : step root place name = .ok next) :
    step (Node.put (.file content) file root) place name = .ok next := by
  obtain ⟨entries, hdir, hcases⟩ := step_eq_ok.1 h
  obtain ⟨entries', hdir'⟩ := hfile.get?_dir content hdir
  refine step_eq_ok.2 ⟨entries', hdir', ?_⟩
  rcases hcases with hstay | hup | ⟨hdot, hdots, hlength, hentry, rfl⟩
  · exact .inl hstay
  · exact .inr (.inl hup)
  · obtain ⟨node, hnode⟩ := Option.isSome_iff_exists.1 hentry
    rw [← Node.get?_append_singleton hdir] at hnode
    obtain ⟨node', hnode', -, -⟩ := Node.get?_put_of_get? content hfile.not_dir hnode
    rw [Node.get?_append_singleton hdir'] at hnode'
    exact .inr (.inr ⟨hdot, hdots, hlength, by rw [hnode']; rfl, rfl⟩)

theorem follow_put {place' : Location} {steps : List Text}
    (h : follow root place steps = .ok place') :
    follow (Node.put (.file content) file root) place steps = .ok place' := by
  induction steps generalizing place with
  | nil => exact h
  | cons name steps ih =>
    obtain ⟨next, hstep, hfollow⟩ := follow_cons.1 h
    exact follow_cons.2 ⟨next, step_put hfile content hstep, ih hfollow⟩

theorem resolve_put {cwd : Location} {path : Text} (h : resolve root cwd path = .ok place) :
    resolve (Node.put (.file content) file root) cwd path = .ok place := by
  unfold resolve at h ⊢
  cases hcheck : check path with
  | error errno =>
    rw [hcheck] at h
    cases h
  | ok _ =>
    rw [hcheck] at h
    exact follow_put hfile content h

theorem resolveNew_put {cwd : Location} {path : Text} (h : resolveNew root cwd path = .ok place) :
    resolveNew (Node.put (.file content) file root) cwd path = .ok place := by
  obtain ⟨dir, name, entries, hcheck, hlast, hfollow, hdots, hdir, hrest⟩ := resolveNew_eq_ok.1 h
  obtain ⟨entries', hdir'⟩ := hfile.get?_dir content hdir
  exact resolveNew_eq_ok.2
    ⟨dir, name, entries', hcheck, hlast, follow_put hfile content hfollow, hdots, hdir', hrest⟩

end Put

end Path

/-! ## Worlds -/

namespace World

variable {w w' : World} {path : Text} {place other : Location}

theorem onPath_of_ok {α β : Type} {call : Call} {work : Except Errno α} {work' : Except Errno β}
    {a : α} {b : β} (h : w.onPath call path work = .ok a) (hfaults : w'.faults = w.faults)
    (hwork : work' = .ok b) : w'.onPath call path work' = .ok b := by
  unfold onPath fault? at h ⊢
  rw [hfaults, hwork]
  split at h
  · cases h
  · split_ifs at h with hnul
    rw [if_neg hnul]
    rfl

theorem openToRead_eq_ok (h : w.openToRead path = .ok place) :
    ∃ content, w.find path = .ok (place, .file content) := by
  obtain ⟨-, -, h⟩ := onPath_eq_ok.1 h
  cases hfind : w.find path with
  | error errno =>
    rw [hfind] at h
    cases h
  | ok found =>
    obtain ⟨place', content | entries⟩ := found <;> rw [hfind] at h <;> cases h
    exact ⟨content, rfl⟩

theorem takes_of_openToWrite (h : w.openToWrite path = .ok (place, w')) : w.root.Takes place := by
  obtain ⟨-, hresolve, -⟩ := openToWrite_eq_ok h
  obtain ⟨-, -, h⟩ := onPath_eq_ok.1 h
  obtain ⟨above, name, entries, -, -, -, -, habove, -, -, rfl⟩ := Path.resolveNew_eq_ok.1 hresolve
  refine ⟨⟨above, name, entries, rfl, habove⟩, fun entries' hdir => ?_⟩
  simp only [hresolve, hdir, bind, Except.bind] at h
  cases h

section WithFile

variable (hother : w.root.Takes other) (content : ByteArray)
include hother

theorem openToRead_withFile (h : w.openToRead path = .ok place) :
    (w.withFile other content).openToRead path = .ok place := by
  obtain ⟨old, hfind⟩ := openToRead_eq_ok h
  obtain ⟨hresolve, hget⟩ := find_eq_ok.1 hfind
  have hresolve' := Path.resolve_put hother content hresolve
  obtain ⟨node, hnode, hdir, -⟩ := Node.get?_put_of_get? content hother.not_dir hget
  refine onPath_of_ok h rfl ?_
  rcases node with new | entries
  · simp only [find, withFile, hresolve', hnode, bind, Except.bind]
    rfl
  · cases hdir

theorem openToWrite_withFile (h : w.openToWrite path = .ok (place, w')) :
    (w.withFile other content).openToWrite path =
      .ok (place, (w.withFile other content).withFile place .empty) := by
  have htakes := (takes_of_openToWrite h).put hother content
  have hresolve := Path.resolveNew_put hother content (openToWrite_eq_ok h).2.1
  refine onPath_of_ok h rfl ?_
  simp only [withFile, hresolve, bind, Except.bind]
  split
  · next entries hdir => exact absurd hdir (htakes.not_dir entries)
  · rfl

theorem get?_withFile {found : ByteArray} (h : w.root.get? place = some (.file found))
    (hne : place ≠ other) :
    (w.withFile other content).root.get? place = some (.file found) := by
  obtain ⟨node, hget, -, hsame⟩ := Node.get?_put_of_get? content hother.not_dir h
  cases hsame hne rfl
  exact hget

end WithFile

theorem content_withFile_of_takes (h : w.root.Takes place) (content : ByteArray) :
    (w.withFile place content).content place = content := by
  rw [World.content, withFile, h.get?_put content]

def IsEmptied (w : World) (place : Location) : Prop := w.withFile place .empty = w

theorem isEmptied_withFile (w : World) (place : Location) :
    (w.withFile place .empty).IsEmptied place := by
  rw [IsEmptied, withFile, withFile, Node.put_put_self]

namespace IsEmptied

theorem of_root (h : w.IsEmptied place) (hroot : w'.root = w.root) : w'.IsEmptied place := by
  have hput : Node.put (.file .empty) place w.root = w.root := congrArg root h
  rw [IsEmptied, withFile, hroot, hput, ← hroot]

theorem withFile (h : w.IsEmptied place) (hne : other ≠ place) (content : ByteArray) :
    (w.withFile other content).IsEmptied place := by
  rw [IsEmptied, World.withFile, World.withFile, Node.put_put_of_ne (congrArg root h) hne]

theorem content_eq (h : w.IsEmptied place) : w.content place = .empty := by
  rw [← h, content_withFile_self]

theorem overwrite_nil (h : w.IsEmptied place) : w.overwrite place (Content.ofText []) = w :=
  (overwrite_of_empty h.content_eq _).trans h

end IsEmptied

/-- A world where files have been emptied, the last one first. -/
def emptied (places : List Location) (w : World) : World :=
  places.foldr (fun place w => w.withFile place .empty) w

section Emptied

variable {places : List Location}

theorem isEmptied_emptied (h : place ∈ places) : (w.emptied places).IsEmptied place := by
  induction places with
  | nil => cases h
  | cons first later ih =>
    by_cases hfirst : first = place
    · subst hfirst
      exact isEmptied_withFile _ first
    · exact (ih ((List.mem_cons.1 h).resolve_left (Ne.symm hfirst))).withFile hfirst .empty

variable (hplaces : ∀ place ∈ places, w.root.Takes place)
include hplaces

theorem takes_emptied (h : w.root.Takes place) : (w.emptied places).root.Takes place := by
  induction places generalizing place with
  | nil => exact h
  | cons first later ih =>
    obtain ⟨hfirst, hlater⟩ := List.forall_mem_cons.1 hplaces
    exact (ih hlater h).put (ih hlater hfirst) .empty

theorem get?_emptied {found : ByteArray} (h : w.root.get? place = some (.file found))
    (hne : place ∉ places) : (w.emptied places).root.get? place = some (.file found) := by
  induction places with
  | nil => exact h
  | cons first later ih =>
    obtain ⟨hfirst, hlater⟩ := List.forall_mem_cons.1 hplaces
    obtain ⟨hplace, hlate⟩ := not_or.1 (List.mem_cons.not.1 hne)
    exact get?_withFile (takes_emptied hlater hfirst) .empty (ih hlater hlate) hplace

theorem openToRead_emptied (h : w.openToRead path = .ok place) :
    (w.emptied places).openToRead path = .ok place := by
  induction places with
  | nil => exact h
  | cons first later ih =>
    obtain ⟨hfirst, hlater⟩ := List.forall_mem_cons.1 hplaces
    exact openToRead_withFile (takes_emptied hlater hfirst) .empty (ih hlater)

theorem openToWrite_emptied (h : w.openToWrite path = .ok (place, w')) :
    (w.emptied places).openToWrite path = .ok (place, w.emptied (place :: places)) := by
  induction places with
  | nil =>
    rw [(openToWrite_eq_ok h).2.2] at h
    exact h
  | cons first later ih =>
    obtain ⟨hfirst, hlater⟩ := List.forall_mem_cons.1 hplaces
    exact openToWrite_withFile (takes_emptied hlater hfirst) .empty (ih hlater)

end Emptied

end World

end CommandShell
