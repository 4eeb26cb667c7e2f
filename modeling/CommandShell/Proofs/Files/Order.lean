import CommandShell.Files.Expansion
import CommandShell.Proofs.Files.Put

/-!
# The order of names

A directory keeps its entries in code-point order of their names, whatever is put into it, so its
listing comes in that order. The paths that a pattern stands for come in the same order. In one
directory they are found in it; those of several are put in it, as some characters come before the
slash.
-/

namespace CommandShell

variable {entries : Entries} {name path : Text} {new node root : Node} {w : World}

namespace Entries

def IsSorted (entries : Entries) : Prop := (entries.map (·.1)).Pairwise (· < ·)

private theorem mem_names_insert {other : Text}
    (h : other ∈ (insert name node entries).map (·.1)) :
    other = name ∨ other ∈ entries.map (·.1) := by
  induction entries with
  | nil => exact .inl (List.mem_singleton.mp h)
  | cons entry entries ih =>
    obtain ⟨first, found⟩ := entry
    rw [insert] at h
    split_ifs at h with hfirst hle
    · exact (List.mem_cons.mp h).imp_right (List.mem_cons_of_mem first)
    · rcases List.mem_cons.mp h with rfl | h
      · exact .inr List.mem_cons_self
      · exact (ih h).imp_right (List.mem_cons_of_mem first)
    · exact List.mem_cons.mp h

theorem IsSorted.insert (h : entries.IsSorted) (name : Text) (node : Node) :
    (entries.insert name node).IsSorted := by
  induction entries with
  | nil => exact List.pairwise_singleton _ _
  | cons entry entries ih =>
    obtain ⟨first, found⟩ := entry
    obtain ⟨hfirst, hlater⟩ := List.pairwise_cons.mp h
    rw [Entries.insert]
    split_ifs with hsame hle
    · exact hsame ▸ h
    · refine List.pairwise_cons.mpr ⟨fun other hother => ?_, ih hlater⟩
      rcases mem_names_insert hother with rfl | hother
      · exact lt_of_le_of_ne ((Text.le_iff _ _).mp hle) hsame
      · exact hfirst other hother
    · have hname : name < first := not_le.mp fun h => hle ((Text.le_iff _ _).mpr h)
      refine List.pairwise_cons.mpr ⟨?_, h⟩
      exact List.forall_mem_cons.mpr ⟨hname, fun other hother => hname.trans (hfirst other hother)⟩

end Entries

namespace Node

/-- Whether all directories of a tree keep their names in order. -/
def IsSorted (node : Node) : Prop :=
  ∀ place entries, node.get? place = some (.dir entries) → Entries.IsSorted entries

@[simp] theorem isSorted_file (content : ByteArray) : (file content).IsSorted := fun _ _ h =>
  nomatch (get?_file h).2

@[simp] theorem isSorted_empty : empty.IsSorted := by
  intro place entries h
  cases place with
  | nil =>
    cases h
    exact List.Pairwise.nil
  | cons name place => cases h

theorem isSorted_dir : (dir entries).IsSorted ↔ Entries.IsSorted entries ∧
    ∀ name child, Entries.get? name entries = some child → child.IsSorted := by
  constructor
  · refine fun h => ⟨h [] entries rfl, fun name child hchild place found hfound => ?_⟩
    exact h (name :: place) found (by rw [get?_cons_dir, hchild]; exact hfound)
  · rintro ⟨hentries, hchildren⟩ place found h
    cases place with
    | nil =>
      cases h
      exact hentries
    | cons name place =>
      rw [get?_cons_dir, Option.bind_eq_some_iff] at h
      obtain ⟨child, hchild, hfound⟩ := h
      exact hchildren name child hchild place found hfound

theorem IsSorted.insert (h : (dir entries).IsSorted) (hnode : node.IsSorted) (name : Text) :
    (dir (Entries.insert name node entries)).IsSorted := by
  obtain ⟨hentries, hchildren⟩ := isSorted_dir.mp h
  refine isSorted_dir.mpr ⟨hentries.insert name node, fun other child hchild => ?_⟩
  rw [Entries.get?_insert] at hchild
  split_ifs at hchild with hname
  · exact Option.some.inj hchild ▸ hnode
  · exact hchildren other child hchild

theorem IsSorted.put (h : root.IsSorted) (hnew : new.IsSorted) (place : Location) :
    (put new place root).IsSorted := by
  induction place generalizing root with
  | nil => exact hnew
  | cons name place ih =>
    cases root with
    | file content => exact h
    | dir entries =>
      cases hchild : Entries.get? name entries with
      | some child =>
        rw [put_cons_of_some hchild]
        exact h.insert (ih ((isSorted_dir.mp h).2 name child hchild)) name
      | none =>
        cases place with
        | nil => exact put_singleton_of_none hchild new ▸ h.insert hnew name
        | cons next later => rwa [put_cons_of_none hchild new (List.cons_ne_nil _ _)]

theorem IsSorted.grow (h : root.IsSorted) (hnew : new.IsSorted) (place : Location) :
    (grow new place root).IsSorted := by
  induction place generalizing root with
  | nil => exact hnew
  | cons name place ih =>
    cases root with
    | file content => exact h
    | dir entries =>
      refine h.insert (ih ?_) name
      cases hchild : Entries.get? name entries with
      | some child => exact (isSorted_dir.mp h).2 name child hchild
      | none => exact isSorted_empty

end Node

theorem World.sorted_list (h : w.root.IsSorted) {names : List Text}
    (hlist : w.list path = .ok names) : names.Pairwise (· < ·) := by
  obtain ⟨-, -, hlist⟩ := onPath_eq_ok.mp hlist
  cases hfind : w.find path with
  | error failure => rw [hfind] at hlist; cases hlist
  | ok found =>
    obtain ⟨place, node⟩ := found
    rw [hfind] at hlist
    cases node with
    | file content => cases hlist
    | dir entries =>
      cases hlist
      exact h place entries (find_eq_ok.mp hfind).2

namespace Expansion

variable {pattern : Text} {found : List Text}

theorem sorted_paths (h : paths w pattern = .ok found) : found.Pairwise (· ≤ ·) := by
  cases hall : matching w pattern false with
  | error crash => rw [paths, hall] at h; cases h
  | ok all =>
    rw [paths, hall] at h
    cases h
    exact Text.sorted_mergeSort all

private theorem sorted_entries (h : w.root.IsSorted) (hentries : Expansion.entries w path =
    .ok entries) : entries.IsSorted := by
  unfold Expansion.entries at hentries
  extract_lets place at hentries
  split_ifs at hentries
  split at hentries
  · next found entries hfind =>
    cases hentries
    exact h found entries (World.find_eq_ok.mp hfind).2
  · cases hentries
    exact List.Pairwise.nil

private theorem sorted_fitting (h : w.root.IsSorted) {dirsOnly : Bool}
    (hfound : fitting w path pattern dirsOnly = .ok found) : found.Pairwise (· < ·) := by
  cases hentries : Expansion.entries w path with
  | error crash => rw [fitting, hentries] at hfound; cases hfound
  | ok entries =>
    rw [fitting, hentries] at hfound
    cases hfound
    have hkept : ((entries.filter fun entry => !dirsOnly || entry.2.isDir).map (·.1)).Pairwise
        (· < ·) := List.Pairwise.sublist (List.filter_sublist.map _) (sorted_entries h hentries)
    dsimp only
    split_ifs
    · exact hkept.filter _
    · exact (hkept.filter _).filter _

/-- In one directory, paths are found in the order in which they are given. -/
theorem paths_eq_matching (h : w.root.IsSorted) (hpattern : (Path.split pattern).1 = []) :
    paths w pattern = matching w pattern false := by
  cases hall : matching w pattern false with
  | error crash => rw [paths, hall]; rfl
  | ok all =>
    have hsorted : all.Pairwise (· ≤ ·) := by
      rw [matching, hpattern] at hall
      rw [if_pos List.isEmpty_nil] at hall
      split_ifs at hall with hany
      · cases hall
        dsimp only [existing]
        split_ifs <;> simp
      · exact (sorted_fitting h hall).imp le_of_lt
    rw [paths, hall]
    exact congrArg Except.ok (List.mergeSort_of_pairwise (hsorted.imp (Text.le_iff _ _).mpr))

end Expansion

end CommandShell
