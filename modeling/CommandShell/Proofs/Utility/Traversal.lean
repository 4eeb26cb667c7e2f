import CommandShell.Proofs.Utility.Finding

/-!
# The order of a search

`find` goes into each directory when it comes to it, and lists the directory itself afterwards. It
fails if a directory that it goes into cannot be listed, and then writes nothing. A directory whose
path is too long for the system is not gone into: the search takes it for a file, so what is below
it is left out, and that it cannot be listed goes unnoticed. How deep a tree may be is not modelled.
-/

namespace CommandShell

variable {w : World} {path pattern name : Text} {place : Location} {entries : Entries} {node : Node}

/-! ## Different places -/

namespace Path

private theorem names_along (hpath : path ≠ []) (hplace : ∀ name ∈ place, IsName name) :
    names (along path place) = names path ++ place := by
  induction place generalizing path with
  | nil => exact (List.append_nil _).symm
  | cons name place ih =>
    obtain ⟨hname, hplace⟩ := List.forall_mem_cons.1 hplace
    change names (along (join path name) place) = _
    rw [ih (join_ne_nil path hname) hplace, join_eq_base_append path hname.slash,
      names_base_append hpath, names_of_isName hname, List.append_assoc, List.singleton_append]

theorem nul_not_mem_along (hpath : path ≠ []) (hplace : ∀ name ∈ place, IsName name)
    (hnul : '\x00' ∉ path) : '\x00' ∉ along path place := by
  induction place generalizing path with
  | nil => exact hnul
  | cons name place ih =>
    obtain ⟨hname, hplace⟩ := List.forall_mem_cons.1 hplace
    exact ih (join_ne_nil path hname) hplace (nul_not_mem_join hpath hname hnul)

end Path

theorem Node.IsProper.nodup_along (h : node.IsProper) (hpath : path ≠ []) {places : List Location}
    (hnodup : places.Nodup) (hplaces : ∀ place ∈ places, (node.get? place).isSome = true) :
    (places.map (Path.along path)).Nodup := by
  have hnames : ∀ place ∈ places,
      Path.names (Path.along path place) = Path.names path ++ place := by
    intro place hplace
    obtain ⟨found, hfound⟩ := Option.isSome_iff_exists.1 (hplaces place hplace)
    exact Path.names_along hpath (h.isName_of_mem hfound)
  refine hnodup.map_on fun a ha b hb heq => ?_
  have hsame := congrArg Path.names heq
  rw [hnames a ha, hnames b hb] at hsame
  exact List.append_cancel_left hsame

theorem Node.hasDir_cons {rest : Location} : (dir entries).HasDir (name :: rest) ↔
    ∃ child, Entries.get? name entries = some child ∧ child.HasDir rest := by
  unfold HasDir
  rw [get?_cons_dir]
  constructor
  · rintro ⟨inner, hinner⟩
    obtain ⟨child, hchild, hrest⟩ := Option.bind_eq_some_iff.1 hinner
    exact ⟨child, hchild, inner, hrest⟩
  · rintro ⟨child, hchild, inner, hrest⟩
    exact ⟨inner, Option.bind_eq_some_iff.2 ⟨child, hchild, hrest⟩⟩

/-! ## Directories that cannot be listed -/

namespace Find

def Enters (path : Text) (node : Node) (dir : Location) : Prop :=
  node.HasDir dir ∧ Text.byteLength (Path.along path dir) < Path.maxPath

/-- That a search has gone into certain directories below a path: one of them could not be listed,
or all of them could. -/
def Search.Covers (w : World) (path : Text) (dirs : Location → Prop) (search : Search) : Prop :=
  match search.failure with
  | some failure => ∃ dir, dirs dir ∧ w.list (Path.along path dir) = .error failure
  | none => ∀ dir, dirs dir → ∃ names, w.list (Path.along path dir) = .ok names

namespace Search.Covers

variable {dirs dirs' : Location → Prop} {search : Search}

theorem of_not (h : ∀ dir, ¬dirs dir) (found : List Text) : Covers w path dirs ⟨found, none⟩ :=
  fun dir hdir => absurd hdir (h dir)

theorem congr (h : Covers w path dirs search) (hdirs : ∀ dir, dirs dir ↔ dirs' dir) :
    Covers w path dirs' search := by
  obtain rfl : dirs = dirs' := funext fun dir => propext (hdirs dir)
  exact h

theorem andThen {second : Unit → Search} (h : Covers w path dirs search)
    (h' : Covers w path dirs' (second ())) :
    Covers w path (fun dir => dirs dir ∨ dirs' dir) (search.andThen second) := by
  obtain ⟨found, _ | failure⟩ := search
  · unfold Covers Search.andThen at *
    dsimp only at h ⊢
    cases hsecond : (second ()).failure with
    | none =>
      rw [hsecond] at h'
      exact fun dir hdir => hdir.elim (h dir) (h' dir)
    | some failure =>
      rw [hsecond] at h'
      obtain ⟨dir, hdir, hlist⟩ := h'
      exact ⟨dir, .inr hdir, hlist⟩
  · obtain ⟨dir, hdir, hlist⟩ := h
    exact ⟨dir, .inl hdir, hlist⟩

theorem below (h : Covers w (Path.join path name) dirs search) :
    Covers w path (fun dir => ∃ rest, dir = name :: rest ∧ dirs rest) search := by
  obtain ⟨found, _ | failure⟩ := search
  · rintro _ ⟨rest, rfl, hrest⟩
    exact h rest hrest
  · obtain ⟨dir, hdir, hlist⟩ := h
    exact ⟨name :: dir, ⟨dir, rfl, hdir⟩, hlist⟩

end Search.Covers

open Search

def EntersEntry (path : Text) (entry : Text × Node) (dir : Location) : Prop :=
  ∃ rest, dir = entry.1 :: rest ∧ Enters (Path.join path entry.1) entry.2 rest

private theorem enters_dir (hnodup : (entries.map (·.1)).Nodup)
    (hlength : Text.byteLength path < Path.maxPath) (dir : Location) :
    dir = [] ∨ (∃ entry ∈ entries, EntersEntry path entry dir) ↔
      Enters path (.dir entries) dir := by
  cases dir with
  | nil => exact iff_of_true (.inl rfl) ⟨⟨entries, rfl⟩, hlength⟩
  | cons name rest =>
    unfold Enters EntersEntry
    rw [Node.hasDir_cons]
    constructor
    · rintro (hnil | ⟨entry, hmem, rest, hdir, hrest, hshort⟩)
      · cases hnil
      · cases hdir
        exact ⟨⟨entry.2, Entries.get?_of_mem hnodup hmem, hrest⟩, hshort⟩
    · rintro ⟨⟨child, hchild, hrest⟩, hshort⟩
      exact .inr ⟨(name, child), Entries.mem_of_get? hchild, rest, rfl, hrest, hshort⟩

private theorem not_enters_of_not_isDir {child : Node} (hnul : '\x00' ∉ path)
    (hfind : w.find path = .ok (place, .dir entries)) (hname : Path.IsName name)
    (hchild : Entries.get? name entries = some child) (hproper : child.IsProper)
    (h : ¬w.isDir (Path.join path name) = true) (dir : Location) :
    ¬Enters (Path.join path name) child dir := by
  rw [World.isDir_join hfind hname hchild hnul] at h
  rintro ⟨⟨inner, hget⟩, hlength⟩
  have hle := Path.byteLength_le_along (Path.join_ne_nil path hname) (hproper.isName_of_mem hget)
  cases child with
  | file content => cases (Node.get?_file hget).2
  | dir inner => exact h ⟨rfl, Nat.lt_of_le_of_lt hle hlength⟩

mutual

theorem covers_search : ∀ (node : Node) {path : Text} {place : Location}, '\x00' ∉ path →
    w.find path = .ok (place, node) → node.IsProper →
    Covers w path (Enters path node) (search w pattern path node)
  | .file content, path, place, _, _, _ =>
    .of_not (fun _ ⟨⟨_, hget⟩, _⟩ => nomatch (Node.get?_file hget).2) []
  | .dir entries, path, place, hnul, hfind, hproper => by
    obtain ⟨hnodup, hentries⟩ := Node.isProper_dir.1 hproper
    refine .congr ?_ (enters_dir hnodup (World.path_of_find hfind).2)
    rw [search]
    cases hlist : w.list path with
    | error failure => exact ⟨[], .inl rfl, hlist⟩
    | ok names =>
      have hcovers := covers_searchEntries entries hnul hfind hentries
        fun entry => Entries.get?_of_mem hnodup
      have hhere : Covers w path (· = []) ⟨[], none⟩ := by
        rintro _ rfl
        exact ⟨names, hlist⟩
      exact @Covers.andThen w path _ _ _ (fun _ => searchEntries w pattern path entries) hhere
        hcovers

theorem covers_searchEntries : ∀ (later : List (Text × Node)) {path : Text} {place : Location}
    {entries : Entries}, '\x00' ∉ path → w.find path = .ok (place, .dir entries) →
    (∀ entry ∈ later, Path.IsName entry.1 ∧ entry.2.IsProper) →
    (∀ entry ∈ later, Entries.get? entry.1 entries = some entry.2) →
    Covers w path (fun dir => ∃ entry ∈ later, EntersEntry path entry dir)
      (searchEntries w pattern path later)
  | [], _, _, _, _, _, _, _ => .of_not (by simp) []
  | (name, node) :: later, path, place, entries, hnul, hfind, hproper, hentries => by
    obtain ⟨⟨hname, hnode⟩, hproper⟩ := List.forall_mem_cons.1 hproper
    obtain ⟨hget, hentries⟩ := List.forall_mem_cons.1 hentries
    have hinside : Covers w (Path.join path name) (Enters (Path.join path name) node)
        (if w.isDir (Path.join path name) then search w pattern (Path.join path name) node
          else .nothing) := by
      split_ifs with hdir
      · have hlength := ((World.isDir_join hfind hname hget hnul).1 hdir).2
        exact covers_search node (Path.nul_not_mem_join (World.path_of_find hfind).1 hname hnul)
          (World.find_join hfind hname hget hlength) hnode
      · exact .of_not (not_enters_of_not_isDir hnul hfind hname hget hnode hdir) []
    have hothers := covers_searchEntries later hnul hfind hproper hentries
    have hrest (found : List Text) : Covers w path _
        ((Search.mk found none).andThen fun _ => searchEntries w pattern path later) :=
      (Covers.of_not (fun _ => not_false) found).andThen hothers
    rw [searchEntries]
    refine (hinside.below.andThen (hrest _)).congr fun dir => ?_
    rw [List.exists_mem_cons_iff, false_or]
    rfl

end

section Results

variable (hstart : w.find? path = some (.dir entries)) (hproper : (Node.dir entries).IsProper)
include hstart hproper

theorem covers_results :
    Covers w path (Enters path (.dir entries)) (results w ⟨path, pattern, []⟩) := by
  obtain ⟨hnul, place, hfind⟩ := World.find?_eq_some.1 hstart
  change Covers w path _ (searchPath w pattern path)
  rw [searchPath, hstart]
  cases hlist : w.list path with
  | error failure => exact ⟨[], ⟨⟨entries, rfl⟩, (World.path_of_find hfind).2⟩, hlist⟩
  | ok names => exact covers_search _ hnul hfind hproper

/-- No directory has a NUL character in its path, so it is the system that fails. -/
theorem Enters.os_of_list {dir : Location} (hdir : Enters path (.dir entries) dir)
    {failure : CallFailure} (hlist : w.list (Path.along path dir) = .error failure) :
    ∃ error, failure = .os error := by
  obtain ⟨hnul, place, hfind⟩ := World.find?_eq_some.1 hstart
  obtain ⟨⟨inner, hget⟩, -⟩ := hdir
  cases failure with
  | os error => exact ⟨error, rfl⟩
  | nul =>
    exact absurd (World.onPath_eq_nul hlist)
      (Path.nul_not_mem_along (World.path_of_find hfind).1 (hproper.isName_of_mem hget) hnul)

end Results

end Find

/-! ## Long paths -/

namespace Path

/-- A path that leads to the working directory, in many steps. -/
def dots (steps : Nat) : Text := (List.replicate steps ['.', '/']).flatten ++ ['.']

theorem dots_succ (n : Nat) : dots (n + 1) = ['.'] ++ '/' :: dots n := rfl

private theorem names_dots (n : Nat) : names (dots n) = List.replicate (n + 1) ['.'] := by
  induction n with
  | zero => rfl
  | succ n ih =>
    rw [dots_succ, names_append_slash, ih]
    rfl

@[simp] theorem byteLength_dots (n : Nat) : Text.byteLength (dots n) = 2 * n + 1 := by
  induction n with
  | zero => rfl
  | succ n ih =>
    rw [dots_succ, Text.byteLength_append]
    change 1 + (1 + Text.byteLength (dots n)) = _
    omega

theorem resolve_dots {n : Nat} (h : 2 * n + 1 < maxPath) :
    resolve (.dir entries) [] (dots n) = .ok [] := by
  have hsteps : steps (dots n) = List.replicate (n + 1) ['.'] := by
    have hlast : endsInSlash (dots n) = false := by
      rw [endsInSlash, dots, List.getLast?_concat]
      rfl
    rw [steps, hlast, if_neg Bool.false_ne_true, names_dots]
  have hfollow : ∀ count, follow (.dir entries) [] (List.replicate count ['.']) = .ok [] := by
    intro count
    induction count with
    | zero => rfl
    | succ count ih => exact follow_cons.2 ⟨[], step_eq_ok.2 ⟨entries, rfl, .inl ⟨rfl, rfl⟩⟩, ih⟩
  have hstart : start [] (dots n) = [] := by
    unfold start
    split_ifs <;> rfl
  rw [resolve_eq_ok, byteLength_dots, hsteps, hstart]
  exact ⟨by simp [dots], h, hfollow _⟩

theorem nul_not_mem_dots (n : Nat) : '\x00' ∉ dots n := by simp [dots]

end Path

private theorem Complaint.kind_findFailed (error : OsError) :
    (findFailed error).report.kind = .command ∨ (findFailed error).report.kind = .fileNotFound := by
  change (findReport error).kind = _ ∨ (findReport error).kind = _
  unfold findReport
  split_ifs
  · exact .inr rfl
  all_goals exact .inl rfl

namespace Plan

open Find

/-- `find` lists a directory after all that is below it, and entries in the order in which their
directory is listed. If one of the directories that it goes into cannot be listed, it complains and
writes nothing. -/
theorem effect_find_traversal {w : World} {flags : List Flag} {operands : List Text}
    {input output : Stream} (hinput : input.isConnected = true)
    (houtput : output.isWritable = true) {path pattern : Text}
    (hcheck : Find.check w ⟨some flags, some operands, true⟩ = .ok ⟨path, pattern, []⟩)
    {entries : Entries} (hstart : w.find? path = some (.dir entries))
    (hproper : (Node.dir entries).IsProper) :
    let start : Node := .dir entries
    let effect := (simple (.command .find flags operands)).effect ⟨w, input, output⟩
    effect.world = w ∧
    (∀ dir failure, Enters path start dir → w.list (Path.along path dir) = .error failure →
      ∃ error, effect.result = .error (.complaint (.findFailed error)) ∧
        ((Complaint.findFailed error).report.kind = .command ∨
          (Complaint.findFailed error).report.kind = .fileNotFound) ∧
        effect.scene.output = output) ∧
    (effect.result = .ok 0 → ∃ places : List Location,
      effect.scene.output =
        output.pour ((places.map (Path.along path)).map (· ++ ['\n'])).flatten ∧
      (∀ place ∈ places, place ≠ [] ∧ (start.get? place).isSome = true) ∧
      (places.map (Path.along path)).Nodup ∧ places.Pairwise (Precedes w path) ∧
      ∀ place, place ∈ places ↔ start.Lists pattern path place) := by
  intro start effect
  have haccepted : Invocation.check .find ⟨some flags, some operands, true⟩ w =
      .ok (.find ⟨path, pattern, []⟩) := congrArg (Functor.map Invocation.find) hcheck
  have hcovers := @covers_results w path pattern entries hstart hproper
  unfold Search.Covers at hcovers
  cases hfailure : (results w ⟨path, pattern, []⟩).failure with
  | none =>
    rw [hfailure] at hcovers
    obtain ⟨input', heffect⟩ : ∃ input', effect = _ := effect_of_writes hinput houtput haccepted
      (writes_run_of_success hfailure)
    obtain ⟨places, horder, hfound, hmem⟩ := traverses_results hstart hproper hfailure
    obtain ⟨-, place, hfind⟩ := World.find?_eq_some.1 hstart
    have hplaces : ∀ place ∈ places, place ≠ [] ∧ (start.get? place).isSome = true := by
      intro place hplace
      obtain ⟨dir, name, rfl, hget, -⟩ := (hmem place).1 hplace
      exact ⟨by simp, hget⟩
    rw [heffect]
    refine ⟨rfl, fun dir failure hdir hlist => ?_, fun _ => ⟨places, ?_, hplaces, ?_, horder, hmem⟩⟩
    · obtain ⟨names, hnames⟩ := hcovers dir hdir
      cases hlist.symm.trans hnames
    · rw [← hfound]
      rfl
    · exact hproper.nodup_along (World.path_of_find hfind).1 (horder.imp Precedes.ne)
        fun place hplace => (hplaces place hplace).2
  | some failure =>
    rw [hfailure] at hcovers
    obtain ⟨dir, hdir, hlist⟩ := hcovers
    obtain ⟨error, rfl⟩ := Enters.os_of_list hstart hproper hdir hlist
    obtain ⟨input', heffect⟩ : ∃ input', effect = _ := effect_of_writes hinput houtput haccepted
      (writes_run_of_os hfailure)
    rw [heffect]
    exact ⟨rfl, fun _ _ _ _ => ⟨error, rfl, Complaint.kind_findFailed error,
      Stream.pour_nil output⟩, nofun⟩

/-- A directory that cannot be listed takes with it what would be listed before. -/
theorem effect_find_unlisted :
    let start : Node := .dir [(['a'], .dir [(['x'], .file .empty)]), (['b'], .dir [])]
    let ran (faults : List Fault) :=
      (simple (.command .find [] [])).effect ⟨⟨start, [], faults⟩, .empty, .empty⟩
    let denied := ran [⟨.list, "./b".toList, .accessDenied⟩]
    (ran []).scene.output.held = "./a/x\n./a\n./b\n".toList ∧
      (∃ places : List Location, (ran []).scene.output =
          Stream.empty.pour ((places.map (Path.along ['.'])).map (· ++ ['\n'])).flatten ∧
        places.Pairwise (Precedes ⟨start, [], []⟩ ['.'])) ∧
      ∃ error, denied.result = .error (.complaint (.findFailed error)) ∧
        denied.scene.output = .empty := by
  intro start ran denied
  have hproper : start.IsProper := by
    simp only [start, Node.isProper_dir, List.forall_mem_cons, Node.isProper_file, and_true]
    exact ⟨by decide, ⟨by decide, by decide, by decide, List.forall_mem_nil _⟩,
      ⟨by decide, by decide, List.forall_mem_nil _⟩, List.forall_mem_nil _⟩
  have hran (faults : List Fault) := @effect_find_traversal ⟨start, [], faults⟩ [] [] .empty .empty
    rfl rfl ['.'] ['*'] rfl _ rfl hproper
  obtain ⟨-, -, hok⟩ := hran []
  obtain ⟨places, houtput, -, -, horder, -⟩ := hok (by cbv)
  obtain ⟨-, hfails, -⟩ := hran [⟨.list, "./b".toList, .accessDenied⟩]
  obtain ⟨error, hresult, -, hsame⟩ := hfails [['b']] (.os ⟨.accessDenied, some "./b".toList⟩)
    ⟨⟨[], rfl⟩, by decide⟩ rfl
  exact ⟨by cbv, ⟨places, houtput, horder⟩, error, hresult, hsame⟩

/-- A directory whose path is too long cannot be listed, but the search succeeds without it. -/
theorem effect_find_overlong :
    let path := Path.dots 2046
    let w : World := ⟨.dir [("abc".toList, .dir [])], [], []⟩
    w.find? path = some w.root ∧ w.root.HasDir ["abc".toList] ∧
      (∀ names, w.list (Path.along path ["abc".toList]) ≠ .ok names) ∧
      ((simple (.command .find [] [path])).effect ⟨w, .empty, .empty⟩).result = .ok 0 := by
  intro path w
  obtain ⟨hresolve, hnul, hbytes⟩ : Path.resolve w.root [] path = .ok [] ∧ '\x00' ∉ path ∧
      Text.byteLength path = 4093 :=
    ⟨Path.resolve_dots (by decide), Path.nul_not_mem_dots _, Path.byteLength_dots _⟩
  clear_value path
  have hname : Path.IsName "abc".toList := by decide
  have hproper : w.root.IsProper := by
    simp only [w, Node.isProper_dir, List.forall_mem_singleton]
    exact ⟨by decide, hname, by decide, nofun⟩
  have hfind : w.find path = .ok ([], w.root) := World.find_eq_ok.2 ⟨hresolve, rfl⟩
  have hstart : w.find? path = some w.root := World.find?_eq_some.2 ⟨hnul, [], hfind⟩
  have hlist : w.list path = .ok ["abc".toList] :=
    World.onPath_eq_ok.2 ⟨rfl, hnul, by rw [hfind]; rfl⟩
  have hlong : Path.maxPath ≤ Text.byteLength (Path.join path "abc".toList) := by
    rw [Path.join_eq_base_append path hname.slash, Text.byteLength_append]
    have hbase := Path.byteLength_le_base (World.path_of_find hfind).1
    rw [hbytes] at hbase
    exact Nat.add_le_add_right hbase 3
  refine ⟨hstart, ⟨[], rfl⟩, fun names hnames => ?_, ?_⟩
  · obtain ⟨-, -, hwork⟩ := World.onPath_eq_ok.1 hnames
    cases hfound : w.find (Path.along path ["abc".toList]) with
    | error errno =>
      rw [hfound] at hwork
      cases hwork
    | ok found => exact Nat.not_lt.2 hlong (World.path_of_find hfound).2
  · have hcheck : Invocation.check .find ⟨some [], some [path], true⟩ w =
        .ok (.find ⟨path, ['*'], []⟩) := by
      have hhas : w.has path = true := by rw [World.has, hstart]; rfl
      have hpath : Find.checkPath w [path] = .ok path := if_pos hhas
      change Invocation.find <$> (Find.checkPath w [path] >>= _) = _
      rw [hpath]
      rfl
    have hcovers := @covers_results w path ['*'] _ hstart hproper
    unfold Search.Covers at hcovers
    cases hfailure : (results w ⟨path, ['*'], []⟩).failure with
    | none =>
      obtain ⟨input', heffect⟩ := effect_of_writes (rfl : Stream.empty.isConnected = true)
        (rfl : Stream.empty.isWritable = true) hcheck (writes_run_of_success hfailure)
      rw [heffect]
      rfl
    | some failure =>
      rw [hfailure] at hcovers
      obtain ⟨_ | ⟨name, rest⟩, ⟨hdir, hlength⟩, hfails⟩ := hcovers
      · cases hlist.symm.trans hfails
      · obtain ⟨child, hchild, inner, hget⟩ := Node.hasDir_cons.1 hdir
        obtain ⟨rfl, rfl⟩ := Prod.mk.inj (List.mem_singleton.1 (Entries.mem_of_get? hchild))
        have hrest := ((Node.isProper_dir.1 hproper).2 _ List.mem_cons_self).2.isName_of_mem hget
        have hle := Path.byteLength_le_along (Path.join_ne_nil path hname) hrest
        exact absurd hlength (Nat.not_lt.2 (hlong.trans hle))

end Plan

end CommandShell
