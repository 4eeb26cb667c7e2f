import CommandShell.Proofs.Files.Put
import CommandShell.Proofs.Files.Wildcards
import CommandShell.Proofs.Utility.Filters

/-!
# What `find` finds

`find` puts the path of each directory before the pattern, and compares the whole with the paths of
the entries. So the names of directories count as patterns too: a directory whose path does not fit
itself hides all that is in it. Directories whose paths are too long are not searched either.
-/

namespace CommandShell

open List

/-! ## Paths below a directory -/

@[simp] theorem Text.byteLength_append (s t : Text) :
    byteLength (s ++ t) = byteLength s + byteLength t := by
  induction s with
  | nil => exact (Nat.zero_add _).symm
  | cons c s ih => exact (congrArg (c.utf8Size + ·) ih).trans (Nat.add_assoc _ _ _).symm

variable {entries : Entries} {name path : Text} {place : Location} {node : Node}

namespace Path

/-- A name that an entry of a directory can have. -/
structure IsName (name : Text) : Prop where
  ne_nil : name ≠ []
  slash : '/' ∉ name
  nul : '\x00' ∉ name
  ne_dot : name ≠ ['.']
  ne_dots : name ≠ ['.', '.']
  length : Text.byteLength name ≤ maxName

instance (name : Text) : Decidable (IsName name) :=
  decidable_of_iff (name ≠ [] ∧ '/' ∉ name ∧ '\x00' ∉ name ∧ name ≠ ['.'] ∧ name ≠ ['.', '.'] ∧
      Text.byteLength name ≤ maxName)
    ⟨fun ⟨h₁, h₂, h₃, h₄, h₅, h₆⟩ => ⟨h₁, h₂, h₃, h₄, h₅, h₆⟩,
      fun ⟨h₁, h₂, h₃, h₄, h₅, h₆⟩ => ⟨h₁, h₂, h₃, h₄, h₅, h₆⟩⟩

/-- The path of a directory with a slash at its end. -/
def base (path : Text) : Text := join path []

/-- The path of a place below a directory. -/
def along (path : Text) (place : Location) : Text := place.foldl join path

theorem join_eq_base_append (path : Text) {later : Text} (hlater : '/' ∉ later) :
    join path later = base path ++ later := by
  have hhead : ¬later.head? = some '/' := fun h => hlater (mem_of_mem_head? h)
  unfold base join
  simp only [hhead, List.head?_nil, reduceCtorEq, if_false]
  split_ifs <;> simp

@[simp] theorem names_append_slash (a b : Text) : names (a ++ '/' :: b) = names a ++ names b := by
  unfold names Text.splitAt
  rw [Text.splitWhere_append_cons (by simp), filter_append]

section Base

variable {path : Text} (hpath : path ≠ [])
include hpath

theorem base_eq : base path = path ∧ path.getLast? = some '/' ∨ base path = path ++ ['/'] := by
  unfold base join
  rw [if_neg (by simp)]
  split_ifs with h
  · refine .inl ⟨append_nil path, ?_⟩
    simpa [hpath] using h
  · exact .inr rfl

theorem getLast?_base : (base path).getLast? = some '/' := by
  rcases base_eq hpath with ⟨hbase, hlast⟩ | hbase
  · rw [hbase, hlast]
  · rw [hbase, List.getLast?_concat]

theorem names_base_append (later : Text) :
    names (base path ++ later) = names path ++ names later := by
  rcases base_eq hpath with ⟨hbase, hlast⟩ | hbase
  · obtain ⟨front, rfl⟩ := List.getLast?_eq_some_iff.1 hlast
    have hnil : names [] = [] := rfl
    rw [hbase, append_assoc, singleton_append, names_append_slash, names_append_slash,
      hnil, append_nil]
  · rw [hbase, append_assoc, singleton_append, names_append_slash]

theorem head?_base_append (later : Text) : (base path ++ later).head? = path.head? := by
  obtain ⟨c, rest, rfl⟩ := exists_cons_of_ne_nil hpath
  rcases base_eq hpath with ⟨hbase, -⟩ | hbase <;> rw [hbase] <;> rfl

theorem byteLength_le_base : Text.byteLength path ≤ Text.byteLength (base path) := by
  rcases base_eq hpath with ⟨hbase, -⟩ | hbase
  · rw [hbase]
  · rw [hbase, Text.byteLength_append]
    exact Nat.le_add_right _ _

end Base

theorem names_of_isName (h : IsName name) : names name = [name] := by
  unfold names Text.splitAt
  have hslash : ∀ c ∈ name, decide (c = '/') = false := fun c hc =>
    decide_eq_false fun heq => h.slash (heq ▸ hc)
  rw [Text.splitWhere_of_neg hslash]
  simp [h.ne_nil]

theorem join_ne_nil (path : Text) (hname : IsName name) : join path name ≠ [] := by
  rw [join_eq_base_append path hname.slash]
  simp [hname.ne_nil]

section Join

variable {path name : Text} (hpath : path ≠ []) (hname : IsName name)
include hpath hname

theorem steps_join : steps (join path name) = names path ++ [name] := by
  have hlast : endsInSlash (join path name) = false := by
    rw [join_eq_base_append path hname.slash, endsInSlash,
      List.getLast?_append_of_ne_nil _ hname.ne_nil]
    exact decide_eq_false fun h => hname.slash (mem_of_getLast? h)
  rw [steps, hlast, if_neg Bool.false_ne_true, join_eq_base_append path hname.slash,
    names_base_append hpath, names_of_isName hname]

theorem byteLength_le_join : Text.byteLength path ≤ Text.byteLength (join path name) := by
  rw [join_eq_base_append path hname.slash, Text.byteLength_append]
  exact (byteLength_le_base hpath).trans (Nat.le_add_right _ _)

theorem nul_not_mem_join (hnul : '\x00' ∉ path) : '\x00' ∉ join path name := by
  rw [join_eq_base_append path hname.slash]
  rcases base_eq hpath with ⟨hbase, -⟩ | hbase <;> simp [hbase, hnul, hname.nul]

end Join

variable {cwd : Location} {root : Node}

theorem resolve_eq_ok :
    resolve root cwd path = .ok place ↔ path ≠ [] ∧ Text.byteLength path < maxPath ∧
      follow root (start cwd path) (steps path) = .ok place := by
  unfold resolve check
  split_ifs with hnil hlong
  · simp at hnil
    exact iff_of_false nofun fun h => h.1 hnil
  · exact iff_of_false nofun fun h => Nat.not_le.2 h.2.1 hlong
  · exact ⟨fun h => ⟨by simpa using hnil, Nat.not_le.1 hlong, h⟩, fun h => h.2.2⟩

theorem follow_append {place' : Location} {front later : List Text} :
    follow root place (front ++ later) = .ok place' ↔
      ∃ next, follow root place front = .ok next ∧ follow root next later = .ok place' := by
  induction front generalizing place with
  | nil => exact ⟨fun h => ⟨place, rfl, h⟩, fun ⟨_, h, h'⟩ => by cases h; exact h'⟩
  | cons name front ih =>
    simp only [cons_append, follow_cons, ih]
    exact ⟨fun ⟨mid, hmid, next, hnext, hlater⟩ => ⟨next, ⟨mid, hmid, hnext⟩, hlater⟩,
      fun ⟨next, ⟨mid, hmid, hnext⟩, hlater⟩ => ⟨mid, hmid, next, hnext, hlater⟩⟩

@[simp] theorem follow_singleton {place' : Location} :
    follow root place [name] = .ok place' ↔ step root place name = .ok place' := by
  rw [follow_cons]
  exact ⟨fun ⟨_, h, h'⟩ => by cases h'; exact h, fun h => ⟨place', h, rfl⟩⟩

private theorem follow_names (h : resolve root cwd path = .ok place) :
    follow root (start cwd path) (names path) = .ok place := by
  obtain ⟨-, -, hfollow⟩ := resolve_eq_ok.1 h
  unfold steps at hfollow
  split_ifs at hfollow
  · obtain ⟨next, hnext, hstay⟩ := follow_append.1 hfollow
    obtain ⟨-, -, ⟨-, rfl⟩ | ⟨hdot, -⟩ | ⟨hdot, -⟩⟩ := step_eq_ok.1 (follow_singleton.1 hstay)
    · exact hnext
    · exact absurd rfl hdot
    · exact absurd rfl hdot
  · exact hfollow

/-- The path of an entry leads there, unless it is too long. -/
theorem resolve_join (h : resolve root cwd path = .ok place)
    (hdir : root.get? place = some (.dir entries)) (hname : IsName name)
    (hentry : (Entries.get? name entries).isSome = true) {found : Location} :
    resolve root cwd (join path name) = .ok found ↔
      Text.byteLength (join path name) < maxPath ∧ found = place ++ [name] := by
  have hpath := (resolve_eq_ok.1 h).1
  have hstart : start cwd (join path name) = start cwd path := by
    unfold start
    rw [join_eq_base_append path hname.slash, head?_base_append hpath]
  have hstep : follow root (start cwd path) (names path ++ [name]) = .ok found ↔
      found = place ++ [name] := by
    rw [follow_append, follow_names h]
    simp only [Except.ok.injEq, exists_eq_left', follow_singleton, step_eq_ok, hdir,
      Option.some.injEq, Node.dir.injEq]
    simp [hname.ne_dot, hname.ne_dots, hname.length, hentry]
  rw [resolve_eq_ok, hstart, steps_join hpath hname, hstep]
  exact and_iff_right (join_ne_nil path hname)

end Path

/-! ## Trees with proper names -/

theorem Entries.get?_of_mem (h : (entries.map (·.1)).Nodup) {entry : Text × Node}
    (hmem : entry ∈ entries) : get? entry.1 entries = some entry.2 := by
  induction entries with
  | nil => cases hmem
  | cons first entries ih =>
    obtain ⟨name, node⟩ := first
    obtain ⟨hfirst, hnodup⟩ := nodup_cons.1 h
    rw [get?_cons]
    rcases mem_cons.1 hmem with rfl | hmem
    · exact if_pos rfl
    · have hne : name ≠ entry.1 := fun heq =>
        hfirst (mem_map.2 ⟨entry, hmem, heq.symm⟩)
      rw [if_neg hne, ih hnodup hmem]

theorem Entries.mem_of_get? (h : get? name entries = some node) : (name, node) ∈ entries := by
  obtain ⟨entry, hentry, rfl⟩ := Option.map_eq_some_iff.1 h
  obtain rfl : entry.1 = name := by simpa using List.find?_some hentry
  exact List.mem_of_find?_eq_some hentry

namespace Node

/-- That all names in a tree are proper ones, and distinct in each directory. -/
def IsProper (node : Node) : Prop :=
  ∀ place entries, node.get? place = some (.dir entries) →
    (entries.map (·.1)).Nodup ∧ ∀ entry ∈ entries, Path.IsName entry.1

@[simp] theorem isProper_file (content : ByteArray) : (file content).IsProper := fun _ _ h =>
  nomatch (get?_file h).2

theorem isProper_dir : (dir entries).IsProper ↔
    (entries.map (·.1)).Nodup ∧ ∀ entry ∈ entries, Path.IsName entry.1 ∧ entry.2.IsProper := by
  constructor
  · intro h
    obtain ⟨hnodup, hnames⟩ := h [] entries rfl
    refine ⟨hnodup, fun entry hmem => ⟨hnames entry hmem, fun place inner hget => ?_⟩⟩
    refine h (entry.1 :: place) inner ?_
    rw [get?_cons_dir, Entries.get?_of_mem hnodup hmem, Option.bind_some, hget]
  · rintro ⟨hnodup, hentries⟩ place inner hget
    cases place with
    | nil =>
      cases hget
      exact ⟨hnodup, fun entry hmem => (hentries entry hmem).1⟩
    | cons name place =>
      obtain ⟨child, hchild, hget⟩ := Option.bind_eq_some_iff.1 hget
      exact (hentries _ (Entries.mem_of_get? hchild)).2 place inner hget

/-- What a search below a node at a path lists: the entries whose paths fit the pattern behind the
path of their directory, if that path is not too long. -/
def Lists (pattern path : Text) (node : Node) (place : Location) : Prop :=
  ∃ dir name, place = dir ++ [name] ∧ (node.get? place).isSome = true ∧
    Text.byteLength (Path.along path dir) < Path.maxPath ∧
    Wildcard.fits (Path.join (Path.along path dir) pattern)
      (Path.join (Path.along path dir) name) = true

theorem not_lists_nil (pattern path : Text) (node : Node) : ¬node.Lists pattern path [] := by
  rintro ⟨dir, name, hplace, -⟩
  simp at hplace

theorem not_lists_file (pattern path : Text) (content : ByteArray) (place : Location) :
    ¬(file content).Lists pattern path place := by
  rintro ⟨dir, name, rfl, hget, -⟩
  obtain ⟨node, hnode⟩ := Option.isSome_iff_exists.1 hget
  simpa using (get?_file hnode).1

theorem lists_cons {pattern : Text} {rest : Location} :
    (dir entries).Lists pattern path (name :: rest) ↔
      ∃ child, Entries.get? name entries = some child ∧
        (rest = [] ∧ Text.byteLength path < Path.maxPath ∧
            Wildcard.fits (Path.join path pattern) (Path.join path name) = true ∨
          child.Lists pattern (Path.join path name) rest) := by
  constructor
  · rintro ⟨place, last, hplace, hget, hlength, hfits⟩
    rw [get?_cons_dir] at hget
    obtain ⟨node, hnode⟩ := Option.isSome_iff_exists.1 hget
    obtain ⟨child, hchild, hrest⟩ := Option.bind_eq_some_iff.1 hnode
    refine ⟨child, hchild, ?_⟩
    cases place with
    | nil =>
      obtain ⟨rfl, rfl⟩ := List.cons.inj hplace
      exact .inl ⟨rfl, hlength, hfits⟩
    | cons first place =>
      obtain ⟨rfl, rfl⟩ := List.cons.inj hplace
      exact .inr ⟨place, last, rfl, Option.isSome_iff_exists.2 ⟨node, hrest⟩, hlength, hfits⟩
  · rintro ⟨child, hchild, ⟨rfl, hlength, hfits⟩ | ⟨place, last, rfl, hget, hlength, hfits⟩⟩
    · refine ⟨[], name, rfl, ?_, hlength, hfits⟩
      rw [get?_cons_dir, hchild]
      rfl
    · refine ⟨name :: place, last, rfl, ?_, hlength, hfits⟩
      rwa [get?_cons_dir, hchild]

end Node

namespace Path

theorem byteLength_le_along (hpath : path ≠ []) (hplace : ∀ name ∈ place, IsName name) :
    Text.byteLength path ≤ Text.byteLength (along path place) := by
  induction place generalizing path with
  | nil => exact le_rfl
  | cons name place ih =>
    obtain ⟨hname, hplace⟩ := forall_mem_cons.1 hplace
    exact (byteLength_le_join hpath hname).trans (ih (join_ne_nil path hname) hplace)

theorem along_ne_nil (hpath : path ≠ []) (hplace : ∀ name ∈ place, IsName name) :
    along path place ≠ [] := by
  induction place generalizing path with
  | nil => exact hpath
  | cons name place ih =>
    obtain ⟨hname, hplace⟩ := forall_mem_cons.1 hplace
    exact ih (join_ne_nil path hname) hplace

end Path

theorem Node.IsProper.isName_of_mem {node' : Node} (h : node.IsProper)
    (hget : node.get? place = some node') : ∀ name ∈ place, Path.IsName name := by
  induction place generalizing node with
  | nil => exact nofun
  | cons name place ih =>
    cases node with
    | file content => cases hget
    | dir entries =>
      obtain ⟨child, hchild, hget⟩ := Option.bind_eq_some_iff.1 hget
      obtain ⟨hname, hproper⟩ := (isProper_dir.1 h).2 _ (Entries.mem_of_get? hchild)
      exact forall_mem_cons.2 ⟨hname, ih hproper hget⟩

namespace World

variable {w : World} {path : Text} {place : Location} {entries : Entries} {name : Text}
  {child : Node}

theorem find?_eq_some :
    w.find? path = some node ↔ '\x00' ∉ path ∧ ∃ place, w.find path = .ok (place, node) := by
  unfold find?
  by_cases hnul : '\x00' ∈ path
  · simp [hnul]
  · rcases w.find path with errno | ⟨place, found⟩ <;> simp [hnul]

theorem path_of_find (h : w.find path = .ok (place, node)) :
    path ≠ [] ∧ Text.byteLength path < Path.maxPath := by
  obtain ⟨hne, hlength, -⟩ := Path.resolve_eq_ok.1 (find_eq_ok.1 h).1
  exact ⟨hne, hlength⟩

theorem names_of_list {names : List Text} (h : w.list path = .ok names)
    (hfind : w.find path = .ok (place, .dir entries)) : names = entries.map (·.1) := by
  obtain ⟨-, -, hwork⟩ := onPath_eq_ok.1 h
  rw [hfind] at hwork
  exact (Except.ok.inj hwork).symm

section Join

variable (hfind : w.find path = .ok (place, .dir entries)) (hname : Path.IsName name)
  (hchild : Entries.get? name entries = some child)
include hfind hname hchild

theorem find_join (hlength : Text.byteLength (Path.join path name) < Path.maxPath) :
    w.find (Path.join path name) = .ok (place ++ [name], child) := by
  obtain ⟨hresolve, hdir⟩ := find_eq_ok.1 hfind
  refine find_eq_ok.2 ⟨?_, (Node.get?_append_singleton hdir name).trans hchild⟩
  exact (Path.resolve_join hresolve hdir hname (by rw [hchild]; rfl)).2 ⟨hlength, rfl⟩

theorem isDir_join (hnul : '\x00' ∉ path) : w.isDir (Path.join path name) = true ↔
    child.isDir = true ∧ Text.byteLength (Path.join path name) < Path.maxPath := by
  have hnul' := Path.nul_not_mem_join (path_of_find hfind).1 hname hnul
  by_cases hlength : Text.byteLength (Path.join path name) < Path.maxPath
  · have hitem : w.find? (Path.join path name) = some child :=
      find?_eq_some.2 ⟨hnul', _, find_join hfind hname hchild hlength⟩
    simp [isDir, hitem, hlength]
  · have hitem : w.isDir (Path.join path name) ≠ true := fun h => by
      obtain ⟨place, -, entries, hfound⟩ := isDir_iff.1 h
      exact hlength (path_of_find hfound).2
    simp [hitem, hlength]

end Join

end World

/-! ## Searches -/

namespace Find

/-- That one place below a path comes before another in a listing where a directory comes after all
that is below it, and the entries of a directory come in the order of its own listing. -/
inductive Precedes (w : World) (path : Text) : Location → Location → Prop
  | below (dir : Location) (name : Text) (rest : Location) :
      Precedes w path (dir ++ name :: rest) dir
  | beside {dir : Location} {names : List Text} {first second : Text} (rest rest' : Location) :
      w.list (Path.along path dir) = .ok names → [first, second].Sublist names → first ≠ second →
      Precedes w path (dir ++ first :: rest) (dir ++ second :: rest')

namespace Precedes

variable {w : World} {a b : Location}

theorem cons (h : Precedes w (Path.join path name) a b) :
    Precedes w path (name :: a) (name :: b) := by
  cases h with
  | below _ last rest => exact .below (name :: b) last rest
  | beside rest rest' hlist hnames hne =>
    exact @beside w path (name :: _) _ _ _ rest rest' hlist hnames hne

theorem ne (h : Precedes w path a b) : a ≠ b := by
  cases h with
  | below _ last rest => simp
  | beside rest rest' _ _ hne =>
    exact fun heq => hne (List.cons.inj (append_cancel_left heq)).1

end Precedes

namespace Search

theorem of_failure_andThen {first : Search} {second : Unit → Search}
    (h : (first.andThen second).failure = none) :
    first.failure = none ∧ (second ()).failure = none ∧
      (first.andThen second).found = first.found ++ (second ()).found := by
  unfold andThen at h ⊢
  split at h
  · next hfailure => exact absurd h (by simp [hfailure])
  · next hfailure => exact ⟨hfailure, h, by simp⟩

/-- That a search has found certain places below a path, each once. -/
def Finds (path : Text) (lists : Location → Prop) (search : Search) : Prop :=
  ∃ places : List Location, places.Nodup ∧ search.found = places.map (Path.along path) ∧
    ∀ place, place ∈ places ↔ lists place

/-- That a search has found certain places below a path, each in its turn. -/
def Traverses (w : World) (path : Text) (lists : Location → Prop) (search : Search) : Prop :=
  ∃ places : List Location, places.Pairwise (Precedes w path) ∧
    search.found = places.map (Path.along path) ∧ ∀ place, place ∈ places ↔ lists place

namespace Traverses

variable {w : World} {path : Text} {lists lists' : Location → Prop} {search : Search}

theorem finds (h : Traverses w path lists search) : Finds path lists search := by
  obtain ⟨places, horder, hfound, hmem⟩ := h
  exact ⟨places, horder.imp Precedes.ne, hfound, hmem⟩

theorem nothing (h : ∀ place, ¬lists place) : Traverses w path lists .nothing :=
  ⟨[], .nil, rfl, fun place => iff_of_false not_mem_nil (h place)⟩

theorem congr (h : Traverses w path lists search) (hlists : ∀ place, lists place ↔ lists' place) :
    Traverses w path lists' search := by
  obtain ⟨places, horder, hfound, hmem⟩ := h
  exact ⟨places, horder, hfound, fun place => (hmem place).trans (hlists place)⟩

theorem andThen {second : Unit → Search} (h : Traverses w path lists search)
    (h' : Traverses w path lists' (second ()))
    (hbefore : ∀ a, lists a → ∀ b, lists' b → Precedes w path a b)
    (hsuccess : (search.andThen second).failure = none) :
    Traverses w path (fun place => lists place ∨ lists' place) (search.andThen second) := by
  obtain ⟨places, horder, hfound, hmem⟩ := h
  obtain ⟨places', horder', hfound', hmem'⟩ := h'
  refine ⟨places ++ places', ?_, ?_, fun place => ?_⟩
  · refine pairwise_append.2 ⟨horder, horder', fun a ha b hb => ?_⟩
    exact hbefore a ((hmem a).1 ha) b ((hmem' b).1 hb)
  · rw [(of_failure_andThen hsuccess).2.2, hfound, hfound', map_append]
  · rw [mem_append, hmem, hmem']

theorem below (h : Traverses w (Path.join path name) lists search) :
    Traverses w path (fun place => ∃ rest, place = name :: rest ∧ lists rest) search := by
  obtain ⟨places, horder, hfound, hmem⟩ := h
  refine ⟨places.map (name :: ·), ?_, ?_, fun place => ?_⟩
  · exact pairwise_map.2 (horder.imp Precedes.cons)
  · rw [hfound, map_map]
    rfl
  · simp [hmem, eq_comm, and_comm]

end Traverses

end Search

open Search

variable {w : World} {pattern path : Text} {place : Location}

/-- What is listed for an entry, and for what is below it. -/
def ListsEntry (pattern path : Text) (entry : Text × Node) (place : Location) : Prop :=
  ∃ rest, place = entry.1 :: rest ∧ (entry.2.Lists pattern (Path.join path entry.1) rest ∨
    rest = [] ∧ Wildcard.fits (Path.join path pattern) (Path.join path entry.1) = true)

theorem lists_iff_exists_entry (hnodup : (entries.map (·.1)).Nodup)
    (hlength : Text.byteLength path < Path.maxPath) (place : Location) :
    (∃ entry ∈ entries, ListsEntry pattern path entry place) ↔
      (Node.dir entries).Lists pattern path place := by
  cases place with
  | nil =>
    refine iff_of_false ?_ (Node.not_lists_nil pattern path _)
    rintro ⟨entry, -, rest, hplace, -⟩
    cases hplace
  | cons name rest =>
    rw [Node.lists_cons]
    constructor
    · rintro ⟨⟨name, node⟩, hmem, rest, hplace, hlists⟩
      cases hplace
      exact ⟨node, Entries.get?_of_mem hnodup hmem,
        hlists.symm.imp_left fun h => ⟨h.1, hlength, h.2⟩⟩
    · rintro ⟨node, hget, hlists⟩
      exact ⟨(name, node), Entries.mem_of_get? hget, rest, rfl,
        hlists.symm.imp_right fun h => ⟨h.1, h.2.2⟩⟩

theorem traverses_here (w : World) (pattern path name : Text) :
    Traverses w path (fun place => place = [name] ∧
        Wildcard.fits (Path.join path pattern) (Path.join path name) = true)
      ⟨if Wildcard.fits (Path.join path pattern) (Path.join path name) then [Path.join path name]
        else [], none⟩ := by
  split_ifs with hfits
  · exact ⟨[[name]], pairwise_singleton _ _, rfl, fun place => by simp [hfits]⟩
  · exact ⟨[], .nil, rfl, fun place => by simp [hfits]⟩

private theorem not_lists_of_not_isDir {child : Node} (hnul : '\x00' ∉ path)
    (hfind : w.find path = .ok (place, .dir entries)) (hname : Path.IsName name)
    (hchild : Entries.get? name entries = some child) (hproper : child.IsProper)
    (h : ¬w.isDir (Path.join path name) = true) (rest : Location) :
    ¬child.Lists pattern (Path.join path name) rest := by
  rw [World.isDir_join hfind hname hchild hnul] at h
  cases child with
  | file content => exact Node.not_lists_file pattern _ content rest
  | dir inner =>
    rintro ⟨dir, last, rfl, hget, hlength, -⟩
    obtain ⟨node, hnode⟩ := Option.isSome_iff_exists.1 hget
    have hnames := (forall_mem_append.1 (hproper.isName_of_mem hnode)).1
    have hle := Path.byteLength_le_along (Path.join_ne_nil path hname) hnames
    exact h ⟨rfl, Nat.lt_of_le_of_lt hle hlength⟩

mutual

/-- A search that ends well has found what there is to list, in order. -/
theorem traverses_search : ∀ (node : Node) {path : Text} {place : Location}, '\x00' ∉ path →
    w.find path = .ok (place, node) → node.IsProper →
    (search w pattern path node).failure = none →
    Traverses w path (node.Lists pattern path) (search w pattern path node)
  | .file content, path, place, _, _, _, _ =>
    .nothing (Node.not_lists_file pattern path content)
  | .dir entries, path, place, hnul, hfind, hproper, hsuccess => by
    obtain ⟨hnodup, hentries⟩ := Node.isProper_dir.1 hproper
    rw [search] at hsuccess ⊢
    cases hlist : w.list path with
    | error failure =>
      rw [hlist] at hsuccess
      cases hsuccess
    | ok names =>
      rw [hlist] at hsuccess
      obtain rfl : names = entries.map (·.1) := World.names_of_list hlist hfind
      exact (traverses_searchEntries entries hnul hfind hlist (.refl _) hnodup hentries
        (fun entry => Entries.get?_of_mem hnodup) hsuccess).congr
          (lists_iff_exists_entry hnodup (World.path_of_find hfind).2)

theorem traverses_searchEntries : ∀ (later : List (Text × Node)) {path : Text} {place : Location}
    {entries : Entries}, '\x00' ∉ path → w.find path = .ok (place, .dir entries) →
    w.list path = .ok (entries.map (·.1)) → (later.map (·.1)).Sublist (entries.map (·.1)) →
    (later.map (·.1)).Nodup →
    (∀ entry ∈ later, Path.IsName entry.1 ∧ entry.2.IsProper) →
    (∀ entry ∈ later, Entries.get? entry.1 entries = some entry.2) →
    (searchEntries w pattern path later).failure = none →
    Traverses w path (fun place => ∃ entry ∈ later, ListsEntry pattern path entry place)
      (searchEntries w pattern path later)
  | [], _, _, _, _, _, _, _, _, _, _, _ => .nothing fun _ => by simp
  | (name, node) :: later, path, place, entries, hnul, hfind, hlist, hsub, hnodup, hproper,
      hentries, hsuccess => by
    obtain ⟨hfirst, hnodup⟩ := nodup_cons.1 hnodup
    obtain ⟨⟨hname, hnode⟩, hproper⟩ := forall_mem_cons.1 hproper
    obtain ⟨hget, hentries⟩ := forall_mem_cons.1 hentries
    rw [searchEntries] at hsuccess ⊢
    dsimp only at hsuccess ⊢
    obtain ⟨hbelow, hrest, -⟩ := of_failure_andThen hsuccess
    obtain ⟨-, hlater, -⟩ := of_failure_andThen hrest
    have hinside : Traverses w (Path.join path name) (node.Lists pattern (Path.join path name))
        (if w.isDir (Path.join path name) then search w pattern (Path.join path name) node
          else .nothing) := by
      split_ifs at hbelow ⊢ with hdir
      · have hlength := ((World.isDir_join hfind hname hget hnul).1 hdir).2
        exact traverses_search node (Path.nul_not_mem_join (World.path_of_find hfind).1 hname hnul)
          (World.find_join hfind hname hget hlength) hnode hbelow
      · exact .nothing (not_lists_of_not_isDir hnul hfind hname hget hnode hdir)
    have hothers := traverses_searchEntries later hnul hfind hlist
      ((sublist_cons_self _ _).trans hsub) hnodup hproper hentries hlater
    have hbefore : ∀ rest b, (∃ entry ∈ later, ListsEntry pattern path entry b) →
        Precedes w path (name :: rest) b := by
      rintro rest _ ⟨entry, hmem, rest', rfl, -⟩
      have hentry : entry.1 ∈ later.map (·.1) := mem_map_of_mem hmem
      exact @Precedes.beside w path [] _ _ _ rest rest' hlist
        (((singleton_sublist.2 hentry).cons_cons name).trans hsub)
        fun heq => hfirst (heq ▸ hentry)
    refine (hinside.below.andThen ((traverses_here w pattern path name).andThen hothers ?_ hrest) ?_
      hsuccess).congr fun place => ?_
    · rintro _ ⟨rfl, -⟩
      exact hbefore []
    · rintro _ ⟨rest, rfl, hlists⟩ _ (⟨rfl, -⟩ | hlater)
      · -- Nothing is listed as the directory that is searched, so there is a name in `rest`.
        obtain ⟨next, rest, rfl⟩ := exists_cons_of_ne_nil fun hnil : rest = [] =>
          Node.not_lists_nil _ _ _ (hnil ▸ hlists)
        exact .below [name] next rest
      · exact hbefore rest _ hlater
    · rw [exists_mem_cons_iff, ← or_assoc]
      refine or_congr_left ?_
      constructor
      · rintro (⟨rest, rfl, hlists⟩ | ⟨rfl, hfits⟩)
        · exact ⟨rest, rfl, .inl hlists⟩
        · exact ⟨[], rfl, .inr ⟨rfl, hfits⟩⟩
      · rintro ⟨rest, rfl, hlists | ⟨rfl, hfits⟩⟩
        · exact .inl ⟨rest, rfl, hlists⟩
        · exact .inr ⟨rfl, hfits⟩

end

/-! ## Directories that hide nothing -/

/-- A directory at a path whose entries are compared with a pattern by their names: the path is not
too long, and it fits itself. -/
def Opens (path : Text) : Prop :=
  Text.byteLength path < Path.maxPath ∧ Wildcard.fits (Path.base path) (Path.base path) = true

theorem bracket_not_mem_base {path : Text} (hpath : path ≠ []) (h : '[' ∉ path) :
    '[' ∉ Path.base path := by
  rcases Path.base_eq hpath with ⟨hbase, -⟩ | hbase <;> simp [hbase, h]

/-- Names are what counts in directories that no bracket reaches out of. -/
theorem lists_iff_opens {dir : Location} (hproper : node.IsProper) (hpath : path ≠ [])
    (hpattern : '/' ∉ pattern) (hlocal : Wildcard.IsLocal (Path.join (Path.along path dir) pattern))
    (hget : (node.get? (dir ++ [name])).isSome = true) :
    node.Lists pattern path (dir ++ [name]) ↔
      Opens (Path.along path dir) ∧ Wildcard.fits pattern name = true := by
  obtain ⟨found, hfound⟩ := Option.isSome_iff_exists.1 hget
  obtain ⟨hdir, hname⟩ := forall_mem_append.1 (hproper.isName_of_mem hfound)
  have hslash : '/' ∉ name := (hname name (mem_singleton_self name)).slash
  have hne : Path.along path dir ≠ [] := Path.along_ne_nil hpath hdir
  have hfits : Wildcard.fits (Path.join (Path.along path dir) pattern)
      (Path.join (Path.along path dir) name) = true ↔
        Wildcard.fits (Path.base (Path.along path dir)) (Path.base (Path.along path dir)) = true ∧
          Wildcard.fits pattern name = true := by
    rw [Path.join_eq_base_append _ hpattern] at hlocal ⊢
    rw [Path.join_eq_base_append _ hslash]
    exact Wildcard.fits_append_iff (Path.getLast?_base hne) hlocal hslash
  constructor
  · rintro ⟨dir', name', hplace, -, hlength, hjoined⟩
    obtain ⟨rfl, hlast⟩ := append_inj' hplace rfl
    cases hlast
    exact ⟨⟨hlength, (hfits.1 hjoined).1⟩, (hfits.1 hjoined).2⟩
  · rintro ⟨⟨hlength, hself⟩, hpattern⟩
    exact ⟨dir, name, rfl, hget, hlength, hfits.2 ⟨hself, hpattern⟩⟩

end Find

/-- The places below a node whose names fit a pattern. -/
def Node.Named (pattern : Text) (node : Node) (place : Location) : Prop :=
  ∃ dir name, place = dir ++ [name] ∧ (node.get? place).isSome = true ∧
    Wildcard.fits pattern name = true

theorem Node.hasDir_of_get? {dir : Location} (h : (node.get? (dir ++ [name])).isSome = true) :
    node.HasDir dir := by
  rw [get?_append] at h
  rcases hdir : node.get? dir with _ | (content | entries)
  · simp [hdir] at h
  · rw [hdir] at h
    cases h
  · exact ⟨entries, hdir⟩

namespace Find

section Named

variable {node : Node} {path pattern : Text} (hproper : node.IsProper) (hpath : path ≠ [])
  (hpattern : '/' ∉ pattern)
include hproper hpath hpattern

/-- What is listed are the entries with fitting names, unless a directory hides one of them. -/
theorem lists_iff_named_iff (hlocal : ∀ dir, node.HasDir dir →
      Wildcard.IsLocal (Path.join (Path.along path dir) pattern)) :
    (∀ place, node.Lists pattern path place ↔ node.Named pattern place) ↔
      ∀ dir name, (node.get? (dir ++ [name])).isSome = true →
        Wildcard.fits pattern name = true → Opens (Path.along path dir) := by
  have hopens {dir : Location} {name : Text} (hget : (node.get? (dir ++ [name])).isSome = true) :=
    lists_iff_opens hproper hpath hpattern (hlocal dir (Node.hasDir_of_get? hget)) hget
  constructor
  · intro h dir name hget hfits
    exact ((hopens hget).1 ((h _).2 ⟨dir, name, rfl, hget, hfits⟩)).1
  · intro h place
    constructor
    · intro hlists
      obtain ⟨dir, name, rfl, hget, -⟩ := id hlists
      exact ⟨dir, name, rfl, hget, ((hopens hget).1 hlists).2⟩
    · rintro ⟨dir, name, rfl, hget, hfits⟩
      exact (hopens hget).2 ⟨h dir name hget hfits, hfits⟩

/-- No directory hides anything if there are no brackets and no long paths. -/
theorem lists_iff_named (hdirs : ∀ dir, node.HasDir dir →
      '[' ∉ Path.along path dir ∧ Text.byteLength (Path.along path dir) < Path.maxPath)
    (place : Location) : node.Lists pattern path place ↔ node.Named pattern place := by
  have hbase : ∀ dir, node.HasDir dir → '[' ∉ Path.base (Path.along path dir) := by
    rintro dir hdir
    obtain ⟨entries, hget⟩ := hdir
    exact bracket_not_mem_base (Path.along_ne_nil hpath (hproper.isName_of_mem hget))
      (hdirs dir ⟨entries, hget⟩).1
  refine (lists_iff_named_iff hproper hpath hpattern fun dir hdir => ?_).2
    (fun dir name hget _ => ?_) place
  · rw [Path.join_eq_base_append _ hpattern]
    exact Wildcard.isLocal_append (hbase dir hdir) hpattern
  · have hdir := Node.hasDir_of_get? hget
    exact ⟨(hdirs dir hdir).2, Wildcard.fits_self (hbase dir hdir)⟩

end Named

section Results

variable {w : World} {input : Stream}

theorem writes_run_of_success {find : Find} (h : (find.results w).failure = none) :
    find.run.Writes w input (.ok ((find.results w).found.map (· ++ ['\n'])).flatten) := by
  have hworld : Action.world.Reads w input w input := fun _ => rfl
  refine hworld.writes_bind ?_
  dsimp only
  rw [h]
  dsimp only
  split_ifs with hempty
  · rw [List.isEmpty_iff.1 hempty]
    exact (Action.prints_write []).writes _ _
  · exact (Action.prints_writeEach _).writes _ _

theorem writes_run_of_os {find : Find} {error : OsError}
    (h : (find.results w).failure = some (.os error)) :
    find.run.Writes w input (.error (.complaint (.findFailed error))) := by
  have hworld : Action.world.Reads w input w input := fun _ => rfl
  refine hworld.writes_bind ?_
  dsimp only
  rw [h]
  exact (Action.fails_throw _).writes _ _

theorem writes_run_of_failure {find : Find} (h : (find.results w).failure ≠ none) :
    ∃ failure, find.run.Writes w input (.error failure) := by
  rcases hfailure : (find.results w).failure with _ | (error | _)
  · exact absurd hfailure h
  · exact ⟨_, writes_run_of_os hfailure⟩
  · have hworld : Action.world.Reads w input w input := fun _ => rfl
    refine ⟨.crash .nulInPath, hworld.writes_bind ?_⟩
    dsimp only
    rw [hfailure]
    exact (Action.fails_throw _).writes _ _

theorem traverses_results {pattern : Text} {start : Node} (hstart : w.find? path = some start)
    (hproper : start.IsProper) (hsuccess : (results w ⟨path, pattern, []⟩).failure = none) :
    (results w ⟨path, pattern, []⟩).Traverses w path (start.Lists pattern path) := by
  obtain ⟨hnul, place, hfind⟩ := World.find?_eq_some.1 hstart
  have hnow : results w ⟨path, pattern, []⟩ = searchPath w pattern path := rfl
  rw [hnow, searchPath, hstart] at hsuccess ⊢
  cases hlist : w.list path with
  | error failure =>
    rw [hlist] at hsuccess
    cases hsuccess
  | ok names =>
    rw [hlist] at hsuccess
    exact traverses_search start hnul hfind hproper hsuccess

private theorem finds_results {pattern : Text} {start : Node} (hstart : w.find? path = some start)
    (hproper : start.IsProper) (hsuccess : (results w ⟨path, pattern, []⟩).failure = none) :
    (results w ⟨path, pattern, []⟩).Finds path (start.Lists pattern path) :=
  (traverses_results hstart hproper hsuccess).finds

end Results

end Find

namespace Plan

open Find

/-- `find` lists, each once, the entries whose paths fit the pattern behind the path of their
directory, if that is not too long. These are the entries whose names fit if the paths of
directories have no brackets in them and are not too long. If there are brackets, but none that
reaches over a slash, it takes that each directory with such an entry opens. -/
theorem effect_find {w : World} {flags : List Flag} {operands : List Text} {input output : Stream}
    (hinput : input.isConnected = true) (houtput : output.isWritable = true) {path pattern : Text}
    (hcheck : Find.check w ⟨some flags, some operands, true⟩ = .ok ⟨path, pattern, []⟩)
    {start : Node} (hstart : w.find? path = some start) (hproper : start.IsProper)
    (hpattern : '/' ∉ pattern) :
    let effect := (simple (.command .find flags operands)).effect ⟨w, input, output⟩
    effect.world = w ∧ (effect.result = .ok 0 → ∃ places : List Location, places.Nodup ∧
      effect.scene.output =
        output.pour ((places.map (Path.along path)).map (· ++ ['\n'])).flatten ∧
      (∀ place, place ∈ places ↔ start.Lists pattern path place) ∧
      ((∀ dir, start.HasDir dir →
          '[' ∉ Path.along path dir ∧ Text.byteLength (Path.along path dir) < Path.maxPath) →
        ∀ place, place ∈ places ↔ start.Named pattern place) ∧
      ((∀ dir, start.HasDir dir → Wildcard.IsLocal (Path.join (Path.along path dir) pattern)) →
        ((∀ place, place ∈ places ↔ start.Named pattern place) ↔
          ∀ dir name, (start.get? (dir ++ [name])).isSome = true →
            Wildcard.fits pattern name = true → Opens (Path.along path dir)))) := by
  intro effect
  have haccepted : Invocation.check .find ⟨some flags, some operands, true⟩ w =
      .ok (.find ⟨path, pattern, []⟩) := congrArg (Functor.map Invocation.find) hcheck
  by_cases hsuccess : (results w ⟨path, pattern, []⟩).failure = none
  · obtain ⟨input', heffect⟩ : ∃ input', effect = _ := effect_of_writes hinput houtput haccepted
      (writes_run_of_success hsuccess)
    obtain ⟨places, hnodup, hfound, hmem⟩ := finds_results hstart hproper hsuccess
    obtain ⟨-, place, hfind⟩ := World.find?_eq_some.1 hstart
    have hpath := (World.path_of_find hfind).1
    rw [heffect]
    refine ⟨rfl, fun _ => ⟨places, hnodup, ?_, hmem, ?_, ?_⟩⟩
    · rw [← hfound]
      rfl
    · intro hdirs place
      rw [hmem, lists_iff_named hproper hpath hpattern hdirs]
    · intro hlocal
      simp only [hmem]
      exact lists_iff_named_iff hproper hpath hpattern hlocal
  · obtain ⟨failure, hwrites⟩ := writes_run_of_failure hsuccess
    obtain ⟨input', heffect⟩ : ∃ input', effect = _ := effect_of_writes hinput houtput haccepted
      hwrites
    rw [heffect]
    exact ⟨rfl, nofun⟩

/-- Stars in the names of directories do no harm. -/
theorem effect_find_starred :
    let start : Node := .dir [(['*'], .dir [(['f'], .file .empty), (['g'], .file .empty)])]
    let flag : Flag := ⟨"name".toList, .text ['f'], []⟩
    let effect := (simple (.command .find [flag] [])).effect ⟨⟨start, [], []⟩, .empty, .empty⟩
    effect.result = .ok 0 ∧ effect.scene.output.held = "./*/f\n".toList ∧
      ∃ places : List Location, effect.scene.output =
          Stream.empty.pour ((places.map (Path.along ['.'])).map (· ++ ['\n'])).flatten ∧
        ∀ place, place ∈ places ↔ start.Named ['f'] place := by
  intro start flag effect
  have hresult : effect.result = .ok 0 := by cbv
  have hproper : start.IsProper := by
    simp only [start, Node.isProper_dir, forall_mem_cons, Node.isProper_file, and_true]
    exact ⟨by decide, ⟨by decide, by decide, by decide, by decide, forall_mem_nil _⟩,
      forall_mem_nil _⟩
  have hdirs : ∀ dir, start.HasDir dir →
      '[' ∉ Path.along ['.'] dir ∧ Text.byteLength (Path.along ['.'] dir) < Path.maxPath := by
    rintro (_ | ⟨name, _ | ⟨name', dir⟩⟩) ⟨entries, hget⟩
    · decide
    all_goals
      obtain ⟨child, hchild, hget⟩ := Option.bind_eq_some_iff.1 hget
      cases mem_singleton.1 (Entries.mem_of_get? hchild)
    · decide
    · obtain ⟨child, hchild, hget⟩ := Option.bind_eq_some_iff.1 hget
      have hfile : child = .file .empty := by
        simpa using (mem_pair.1 (Entries.mem_of_get? hchild)).imp (congrArg Prod.snd)
          (congrArg Prod.snd)
      cases (Node.get?_file (hfile ▸ hget)).2
  have hcheck : Find.check ⟨start, [], []⟩ ⟨some [flag], some [], true⟩ =
      .ok ⟨['.'], ['f'], []⟩ := rfl
  obtain ⟨-, h⟩ := effect_find (rfl : Stream.empty.isConnected = true)
    (rfl : Stream.empty.isWritable = true) hcheck (rfl : _ = some start) hproper (by decide)
  obtain ⟨places, -, houtput, -, hnamed, -⟩ := h hresult
  exact ⟨hresult, by cbv, places, houtput, hnamed hdirs⟩

/-- A bracket in the name of a directory hides what is in it, and one that is closed in another name
lets in what does not fit. -/
theorem effect_find_bracketed :
    let closed : Node := .dir [("[a]".toList, .dir [(['f'], .file .empty)])]
    let spread : Node :=
      .dir [("*[a".toList, .dir [("b]".toList, .dir [(['f'], .file .empty)])])]
    let listed (start : Node) (pattern : Text) :=
      ((simple (.command .find [⟨"name".toList, .text pattern, []⟩] [])).effect
        ⟨⟨start, [], []⟩, .empty, .empty⟩).scene.output.held
    listed closed ['f'] = [] ∧ closed.Named ['f'] ["[a]".toList, ['f']] ∧
      listed spread "b*".toList = "./*[a/b]/f\n./*[a/b]\n".toList ∧
      Wildcard.fits "b*".toList ['f'] = false :=
  ⟨by cbv, ⟨["[a]".toList], ['f'], rfl, rfl, by cbv⟩, by cbv, by cbv⟩

end Plan

end CommandShell
