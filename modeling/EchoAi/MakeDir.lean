import Mathlib.Data.List.DropRight
import EchoAi.FileTree
import EchoAi.Splitting

/-!
# Making directories

A tree of files grows by directories.

* `Fresh`, `FileTree.withDir`: a directory with one more empty directory in it.
* `FileTree.mkdir`: making a directory at a path; a link at its last name is not followed.
* `TreeGrows`: everything that was there is still there; `locate_of_grows`: paths lead where they
  led.
* `mkdir_behind`: what making a directory behind a path does.
* `ne_nil_of_locate_enoent`: what may be missing behind a path.
-/

namespace EchoAi

/-! ## Growing -/

/-- A name that a directory does not have yet. -/
structure Fresh (t : FileTree) (dir : Location) (name : FileName) : Prop where
  node_dir : t.node dir = some .dir
  entryName : EntryName name
  missing : t.node (dir ++ [name]) = none

instance (t : FileTree) (dir : Location) (name : FileName) : Decidable (Fresh t dir name) :=
  decidable_of_iff
    (t.node dir = some .dir ∧ EntryName name ∧ t.node (dir ++ [name]) = none)
    ⟨fun ⟨a, b, c⟩ => ⟨a, b, c⟩, fun ⟨a, b, c⟩ => ⟨a, b, c⟩⟩

/-- The nodes with one more empty directory. -/
def nodeWith (t : FileTree) (new loc : Location) : Option Node :=
  if loc = new then some .dir else t.node loc

theorem nodeWith_of_ne_none {t : FileTree} {new loc : Location} (hnew : t.node new = none)
    (h : t.node loc ≠ none) : nodeWith t new loc = t.node loc := by
  rw [nodeWith, if_neg]
  rintro rfl
  exact h hnew

/-- A tree with one more empty directory. -/
def FileTree.withDir (t : FileTree) {dir : Location} {name : FileName} (h : Fresh t dir name) :
    FileTree where
  node := nodeWith t (dir ++ [name])
  cwd := t.cwd
  node_nil := by
    rw [nodeWith_of_ne_none h.missing (by rw [t.node_nil]; simp), t.node_nil]
  node_cwd := by
    rw [nodeWith_of_ne_none h.missing (by rw [t.node_cwd]; simp), t.node_cwd]
  node_above loc last hne := by
    have habove : t.node loc = some .dir := by
      rw [nodeWith] at hne
      split at hne
      · next heq => rw [(List.append_inj' heq rfl).1, h.node_dir]
      · exact t.node_above loc last hne
    rw [nodeWith_of_ne_none h.missing (by rw [habove]; simp), habove]
  entryName loc last hne := by
    rw [nodeWith] at hne
    split at hne
    · next heq =>
      rw [List.singleton_inj.mp (List.append_inj' heq rfl).2]
      exact h.entryName
    · exact t.entryName loc last hne

/-- What making a directory answers. -/
inductive MkdirAnswer where
  | made
  | there
  | failed (errno : Errno)
  deriving DecidableEq, Repr

/-- Making a directory at a path.  Slashes behind its last name do not count. -/
def FileTree.mkdir (t : FileTree) (path : List UInt8) : MkdirAnswer × FileTree :=
  if path = [] then (.failed .enoent, t)
  else
    let names := (components path).rdropWhile fun name => decide (name = [])
    match names.getLast? with
    | none => (.there, t)
    | some name =>
      match t.walk false maxSymlinks (baseOf t.cwd path) names.dropLast with
      | .error errno => (.failed errno, t)
      | .ok dir =>
        if h : Fresh t dir name then (.made, t.withDir h)
        else if t.node dir = some .dir then (.there, t)
        else (.failed .enotdir, t)

/-! ## What stays -/

/-- Everything that is in the first tree is in the second. -/
structure TreeGrows (t t' : FileTree) : Prop where
  cwd : t'.cwd = t.cwd
  node : ∀ loc, t.node loc ≠ none → t'.node loc = t.node loc

theorem TreeGrows.refl (t : FileTree) : TreeGrows t t := ⟨rfl, fun _ _ => rfl⟩

theorem TreeGrows.trans {t t' t'' : FileTree} (h : TreeGrows t t') (h' : TreeGrows t' t'') :
    TreeGrows t t'' where
  cwd := h'.cwd.trans h.cwd
  node loc hloc := by
    have hnode := h.node loc hloc
    rw [← hnode] at hloc
    rw [h'.node loc hloc, hnode]

theorem grows_withDir {t : FileTree} {dir : Location} {name : FileName} (h : Fresh t dir name) :
    TreeGrows t (t.withDir h) :=
  ⟨rfl, fun _ hloc => nodeWith_of_ne_none h.missing hloc⟩

section TreeGrows

variable {t t' : FileTree}

theorem walkFrom_of_grows (h : TreeGrows t t')
    {expand expand' : Location → List FileName → Except Errno Location}
    {cur loc : Location} {names : List FileName}
    (hexpand : ∀ cur names, expand cur names = .ok loc → expand' cur names = .ok loc)
    (hwalk : t.walkFrom false expand cur names = .ok loc) :
    t'.walkFrom false expand' cur names = .ok loc := by
  induction names generalizing cur with
  | nil => exact hwalk
  | cons name rest ih =>
    rw [FileTree.walkFrom] at hwalk ⊢
    by_cases hhere : name = [] ∨ name = dotName
    · rw [if_pos hhere] at hwalk ⊢
      exact ih hwalk
    by_cases habove : name = dotDotName
    · rw [if_neg hhere, if_pos habove] at hwalk ⊢
      exact ih hwalk
    rw [if_neg hhere, if_neg habove] at hwalk ⊢
    have hsame : t.node (cur ++ [name]) ≠ none → t'.node (cur ++ [name]) = t.node (cur ++ [name]) :=
      h.node (cur ++ [name])
    cases hnode : t.node (cur ++ [name]) with
    | none =>
      rw [hnode] at hwalk
      exact absurd hwalk (by simp)
    | some node =>
      rw [hnode] at hwalk
      rw [hsame (by rw [hnode]; simp), hnode]
      cases node with
      | dir => exact ih hwalk
      | file => exact hwalk
      | link target =>
        by_cases hempty : target = []
        · exact absurd ((if_pos hempty).symm.trans hwalk) (by simp)
        · exact (if_neg hempty).trans (hexpand _ _ ((if_neg hempty).symm.trans hwalk))

theorem walk_of_grows (h : TreeGrows t t') {links : Nat} {cur loc : Location}
    {names : List FileName} (hwalk : t.walk false links cur names = .ok loc) :
    t'.walk false links cur names = .ok loc := by
  induction links generalizing cur names with
  | zero => exact walkFrom_of_grows h (fun _ _ h => absurd h (by simp)) hwalk
  | succ links ih => exact walkFrom_of_grows h (fun _ _ h => ih h) hwalk

/-- Paths lead where they led. -/
theorem locate_of_grows (h : TreeGrows t t') {path : List UInt8} {loc : Location}
    (hlocate : t.locate false path = .ok loc) : t'.locate false path = .ok loc := by
  rw [FileTree.locate] at hlocate ⊢
  split at hlocate
  · exact absurd hlocate (by simp)
  · next hne =>
    rw [if_neg hne, h.cwd]
    exact walk_of_grows h hlocate

end TreeGrows

/-! ## Behind a path -/

theorem components_append_slash (path behind : List UInt8) :
    components (path ++ slash :: behind) = components path ++ components behind :=
  List.splitOnP_append_cons path behind (beq_self_eq_true slash)

theorem flatMap_components (path : List UInt8) :
    (components path).flatMap (slash :: ·) = slash :: path := by
  induction path using splitOn_induction slash with
  | last name hname => rw [components_of_noSlash hname, List.flatMap_singleton]
  | cut name rest hname ih =>
    rw [components_append_slash, components_of_noSlash hname, List.flatMap_append,
      List.flatMap_singleton, ih, List.cons_append]

theorem noSlash_of_mem_components {path : List UInt8} {name : FileName}
    (h : name ∈ components path) : slash ∉ name :=
  notMem_of_mem_splitOn h

section Behind

variable {t : FileTree} {pre : List UInt8} {name : FileName} {dir : Location}

/-- Names behind a path are sought behind its names. -/
theorem locate_append_slash (hpre : pre ≠ []) (create : Bool) (hname : slash ∉ name) :
    t.locate create (pre ++ slash :: name) =
      t.walk create maxSymlinks (baseOf t.cwd pre) (components pre ++ [name]) := by
  have hhead : (pre ++ slash :: name).head? = pre.head? := by
    obtain ⟨b, pre, rfl⟩ := List.exists_cons_of_ne_nil hpre
    rfl
  rw [FileTree.locate, if_neg (by simp), baseOf, hhead, ← baseOf, components_append_slash,
    components_of_noSlash hname]

/-- **Making a directory behind a path** adds that directory or nothing. -/
theorem mkdir_behind (hpre : pre ≠ []) (hname : slash ∉ name) (hne : name ≠ [])
    (hdir : t.locate false pre = .ok dir) :
    (t.mkdir (pre ++ slash :: name)).2 = t ∨
      ∃ h : Fresh t dir name, (t.mkdir (pre ++ slash :: name)).2 = t.withDir h := by
  have hhead : (pre ++ slash :: name).head? = pre.head? := by
    obtain ⟨b, pre, rfl⟩ := List.exists_cons_of_ne_nil hpre
    rfl
  have hnames : (components (pre ++ slash :: name)).rdropWhile (fun name => decide (name = [])) =
      components pre ++ [name] := by
    rw [components_append_slash, components_of_noSlash hname,
      List.rdropWhile_concat_neg _ _ _ (by simpa using hne)]
  have hwalk : t.walk false maxSymlinks (baseOf t.cwd (pre ++ slash :: name)) (components pre) =
      .ok dir := by
    rw [FileTree.locate, if_neg hpre] at hdir
    rw [baseOf, hhead, ← baseOf, hdir]
  have hne' : ¬pre ++ slash :: name = [] := by simp
  simp only [FileTree.mkdir, if_neg hne', hnames, List.getLast?_concat, List.dropLast_concat, hwalk]
  split
  · next h => exact Or.inr ⟨h, rfl⟩
  · split
    · exact Or.inl rfl
    · exact Or.inl rfl

/-- A slash behind names that lead somewhere leads there, or shows that it is no directory. -/
theorem walkFrom_concat_nil {expand : Location → List FileName → Except Errno Location}
    {cur loc : Location} {names : List FileName}
    (hexpand : ∀ cur names loc, expand cur names = .ok loc →
      expand cur (names ++ [[]]) = .ok loc ∨ expand cur (names ++ [[]]) = .error .enotdir)
    (h : t.walkFrom false expand cur names = .ok loc) :
    t.walkFrom false expand cur (names ++ [[]]) = .ok loc ∨
      t.walkFrom false expand cur (names ++ [[]]) = .error .enotdir := by
  induction names generalizing cur with
  | nil =>
    rw [List.nil_append, FileTree.walkFrom_nil_cons]
    exact Or.inl h
  | cons name rest ih =>
    rw [FileTree.walkFrom] at h
    rw [List.cons_append, FileTree.walkFrom]
    by_cases hhere : name = [] ∨ name = dotName
    · rw [if_pos hhere] at h ⊢
      exact ih h
    by_cases habove : name = dotDotName
    · rw [if_neg hhere, if_pos habove] at h ⊢
      exact ih h
    rw [if_neg hhere, if_neg habove] at h ⊢
    cases hnode : t.node (cur ++ [name]) with
    | none =>
      rw [hnode] at h
      exact absurd h (by simp)
    | some node =>
      rw [hnode] at h
      cases node with
      | dir => exact ih h
      | file => exact Or.inr (if_neg (by simp))
      | link target =>
        by_cases hempty : target = []
        · exact absurd ((if_pos hempty).symm.trans h) (by simp)
        · have hgo := hexpand _ _ _ ((if_neg hempty).symm.trans h)
          rw [List.append_assoc] at hgo
          simpa only [if_neg hempty] using hgo

theorem walk_concat_nil {links : Nat} {cur loc : Location} {names : List FileName}
    (h : t.walk false links cur names = .ok loc) :
    t.walk false links cur (names ++ [[]]) = .ok loc ∨
      t.walk false links cur (names ++ [[]]) = .error .enotdir := by
  induction links generalizing cur names loc with
  | zero => exact walkFrom_concat_nil (fun _ _ _ h => absurd h (by simp)) h
  | succ links ih => exact walkFrom_concat_nil (fun _ _ _ h => ih h) h

/-- Behind a path that leads somewhere only a name can be missing. -/
theorem ne_nil_of_locate_enoent (hpre : pre ≠ []) (hname : slash ∉ name)
    (hdir : t.locate false pre = .ok dir)
    (hmissing : t.locate false (pre ++ slash :: name) = .error .enoent) : name ≠ [] := by
  rintro rfl
  rw [locate_append_slash hpre false hname] at hmissing
  rw [FileTree.locate, if_neg hpre] at hdir
  rcases walk_concat_nil hdir with hsome | hnotdir
  · exact absurd (hsome.symm.trans hmissing) (by simp)
  · exact absurd (hnotdir.symm.trans hmissing) (by simp)

end Behind

end EchoAi
