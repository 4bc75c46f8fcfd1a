import EchoAi.Bytes
import Mathlib.Data.List.Infix

/-!
# Paths in a tree of files

Directories, files and symbolic links, and what a path denotes among them.

* `FileName`, `Location`, `Node`, `FileTree`: the tree.  A node has a directory above it, and its
  name is an entry that a directory can have.  `FileTree.ofEntries` makes one from its entries.
* `walkFrom`, `walk`: following the names of a path through links, as far as it is allowed.
* `locate`: where a path leads.  With `create` the last name may be missing in its directory.
* `render`: the path of a location without links, with `locate_render`, `locate_in_dir` and
  `locate_in_file`.
* `isPrefix_of_render_append`: when the path of a location begins with the path of a directory.
-/

namespace EchoAi

/-- The byte between the names of a path. -/
def slash : UInt8 := 47

/-- A name in a path. -/
abbrev FileName := List UInt8

/-- The directory itself. -/
def dotName : FileName := [46]

/-- The directory above. -/
def dotDotName : FileName := [46, 46]

/-- The names from the root on. -/
abbrev Location := List FileName

/-- What stands at a location. -/
inductive Node where
  | file
  | dir
  | link (target : List UInt8)
  deriving DecidableEq, Repr

/-- A name that an entry of a directory can have. -/
structure EntryName (name : FileName) : Prop where
  ne_nil : name ≠ []
  ne_dot : name ≠ dotName
  ne_dotDot : name ≠ dotDotName
  noSlash : slash ∉ name

instance (name : FileName) : Decidable (EntryName name) :=
  decidable_of_iff (name ≠ [] ∧ name ≠ dotName ∧ name ≠ dotDotName ∧ slash ∉ name)
    ⟨fun ⟨a, b, c, d⟩ => ⟨a, b, c, d⟩, fun ⟨a, b, c, d⟩ => ⟨a, b, c, d⟩⟩

/-- A tree of files with the working directory. -/
structure FileTree where
  node : Location → Option Node
  cwd : Location
  node_nil : node [] = some .dir
  node_cwd : node cwd = some .dir
  node_above : ∀ loc name, node (loc ++ [name]) ≠ none → node loc = some .dir
  entryName : ∀ loc name, node (loc ++ [name]) ≠ none → EntryName name

/-- What stands at a location of a tree with these entries below its root. -/
def nodeOf (entries : List (Location × Node)) (loc : Location) : Option Node :=
  if loc = [] then some .dir else entries.lookup loc

theorem mem_of_nodeOf {entries : List (Location × Node)} {loc : Location} {name : FileName}
    (h : nodeOf entries (loc ++ [name]) ≠ none) : ∃ x, (loc ++ [name], x) ∈ entries := by
  obtain ⟨x, hx⟩ := Option.ne_none_iff_exists'.1 h
  rw [nodeOf, if_neg (by simp), List.lookup_eq_some_iff] at hx
  obtain ⟨before, after, rfl, _⟩ := hx
  exact ⟨x, by simp⟩

/-- The tree with these entries, read from its root. -/
def FileTree.ofEntries (entries : List (Location × Node))
    (h : ∀ e ∈ entries, nodeOf entries e.1.dropLast = some .dir ∧
      ∀ name ∈ e.1.getLast?, EntryName name) : FileTree where
  node := nodeOf entries
  cwd := []
  node_nil := rfl
  node_cwd := rfl
  node_above loc name hne := by
    obtain ⟨x, hx⟩ := mem_of_nodeOf hne
    have habove := (h _ hx).1
    rwa [List.dropLast_concat] at habove
  entryName loc name hne := by
    obtain ⟨x, hx⟩ := mem_of_nodeOf hne
    exact (h _ hx).2 name (by simp)

/-- Why a path denotes nothing. -/
inductive Errno where
  | enoent
  | enotdir
  | eloop
  | enametoolong
  deriving DecidableEq, Repr

/-- The names of a path, with empty ones. -/
def components (path : List UInt8) : List FileName := path.splitOn slash

/-- Where a path begins. -/
def baseOf (cur : Location) (path : List UInt8) : Location :=
  if path.head? = some slash then [] else cur

/-- The number of links that a path may lead through. -/
def maxSymlinks : Nat := 40

namespace FileTree

variable (t : FileTree) (create : Bool)

/-- Following names from a directory.  A link goes on with the names of its target. -/
def walkFrom (expand : Location → List FileName → Except Errno Location) :
    (cur : Location) → List FileName → Except Errno Location
  | cur, [] => .ok cur
  | cur, name :: rest =>
    if name = [] ∨ name = dotName then walkFrom expand cur rest
    else if name = dotDotName then walkFrom expand cur.dropLast rest
    else
      match t.node (cur ++ [name]) with
      | none => if create ∧ rest = [] then .ok (cur ++ [name]) else .error .enoent
      | some .dir => walkFrom expand (cur ++ [name]) rest
      | some .file => if rest = [] then .ok (cur ++ [name]) else .error .enotdir
      | some (.link target) =>
        if target = [] then .error .enoent
        else expand (baseOf cur target) (components target ++ rest)

/-- Following names through at most `links` links. -/
def walk : (links : Nat) → (cur : Location) → List FileName → Except Errno Location
  | 0, cur, names => walkFrom t create (fun _ _ => .error .eloop) cur names
  | links + 1, cur, names => walkFrom t create (walk links) cur names

/-- Where a path leads. -/
def locate (path : List UInt8) : Except Errno Location :=
  if path = [] then .error .enoent
  else walk t create maxSymlinks (baseOf t.cwd path) (components path)

end FileTree

/-- The path of a location. -/
def render (loc : Location) : List UInt8 :=
  if loc = [] then [slash] else loc.flatMap (slash :: ·)

/-! ## The names of a path -/

theorem components_append_flatMap {name : FileName} {loc : Location} (path : List UInt8)
    (hname : slash ∉ name) (hloc : ∀ n ∈ loc, slash ∉ n) :
    components (name ++ (loc.flatMap (slash :: ·) ++ slash :: path)) =
      name :: (loc ++ components path) := by
  induction loc generalizing name with
  | nil => exact List.splitOn_append_cons_self_of_not_mem hname ..
  | cons next loc ih =>
    rw [List.forall_mem_cons] at hloc
    rw [List.flatMap_cons, List.cons_append, List.cons_append, List.append_assoc, components,
      List.splitOn_append_cons_self_of_not_mem hname, ← components, ih hloc.1 hloc.2,
      List.cons_append]

theorem components_of_noSlash {name : FileName} (hname : slash ∉ name) :
    components name = [name] :=
  List.splitOn_eq_singleton hname

theorem components_flatMap {loc : Location} (hne : loc ≠ []) (hloc : ∀ n ∈ loc, slash ∉ n) :
    components (loc.flatMap (slash :: ·)) = [] :: loc := by
  induction loc using List.reverseRecOn with
  | nil => exact absurd rfl hne
  | append_singleton loc name =>
    have hname : slash ∉ name := hloc name (by simp)
    have hbefore : ∀ n ∈ loc, slash ∉ n := fun n hn => hloc n (List.mem_append_left _ hn)
    rw [List.flatMap_append, List.flatMap_singleton, ← List.nil_append (List.flatMap _ _ ++ _),
      components_append_flatMap name List.not_mem_nil hbefore, components_of_noSlash hname]

/-! ## Locations -/

namespace FileTree

variable {t : FileTree} {create : Bool}

/-- Above a location that exists there are directories. -/
theorem node_of_append {dir names : Location} (hne : names ≠ [])
    (h : t.node (dir ++ names) ≠ none) : t.node dir = some .dir := by
  induction names using List.reverseRecOn with
  | nil => exact absurd rfl hne
  | append_singleton names name ih =>
    rw [← List.append_assoc] at h
    have habove := t.node_above _ _ h
    by_cases hnil : names = []
    · rwa [hnil, List.append_nil] at habove
    · exact ih hnil (by rw [habove]; simp)

theorem node_dropLast {dir : Location} (h : t.node dir = some .dir) :
    t.node dir.dropLast = some .dir := by
  induction dir using List.reverseRecOn with
  | nil => exact h
  | append_singleton dir name =>
    rw [List.dropLast_concat]
    exact t.node_above dir name (by rw [h]; simp)

/-- The names of a location that exists are names of entries. -/
theorem entryName_of_mem {loc : Location} (h : t.node loc ≠ none) :
    ∀ name ∈ loc, EntryName name := by
  induction loc using List.reverseRecOn with
  | nil => exact fun name hname => absurd hname List.not_mem_nil
  | append_singleton loc last ih =>
    intro name hname
    rcases List.mem_append.1 hname with hname | hname
    · exact ih (by rw [t.node_above loc last h]; simp) name hname
    · exact List.mem_singleton.1 hname ▸ t.entryName loc last h

theorem noSlash_of_mem {loc : Location} (h : t.node loc ≠ none) :
    ∀ name ∈ loc, slash ∉ name :=
  fun name hname => (entryName_of_mem h name hname).noSlash

/-! ## Following names -/

variable {expand : Location → List FileName → Except Errno Location}

@[simp] theorem walkFrom_nil_cons (cur : Location) (rest : List FileName) :
    walkFrom t create expand cur ([] :: rest) = walkFrom t create expand cur rest := by
  rw [walkFrom, if_pos (Or.inl rfl)]

theorem walkFrom_entry {cur : Location} {name : FileName} (hname : EntryName name)
    (rest : List FileName) :
    walkFrom t create expand cur (name :: rest) =
      match t.node (cur ++ [name]) with
      | none => if create ∧ rest = [] then .ok (cur ++ [name]) else .error .enoent
      | some .dir => walkFrom t create expand (cur ++ [name]) rest
      | some .file => if rest = [] then .ok (cur ++ [name]) else .error .enotdir
      | some (.link target) =>
        if target = [] then .error .enoent
        else expand (baseOf cur target) (components target ++ rest) := by
  have hplain : ¬(name = [] ∨ name = dotName) :=
    fun h => h.elim hname.ne_nil hname.ne_dot
  rw [walkFrom, if_neg hplain, if_neg hname.ne_dotDot]

/-- The names of directories lead to them. -/
theorem walkFrom_append {cur dir : Location} (h : t.node (cur ++ dir) = some .dir)
    (rest : List FileName) :
    walkFrom t create expand cur (dir ++ rest) = walkFrom t create expand (cur ++ dir) rest := by
  induction dir generalizing cur with
  | nil => rw [List.nil_append, List.append_nil]
  | cons name dir ih =>
    have hsplit : cur ++ name :: dir = (cur ++ [name]) ++ dir := by simp
    rw [hsplit] at h
    have hhere : t.node (cur ++ [name]) = some .dir := by
      by_cases hnil : dir = []
      · rwa [hnil, List.append_nil] at h
      · exact node_of_append hnil (by rw [h]; simp)
    have hname : EntryName name := t.entryName cur name (by rw [hhere]; simp)
    rw [List.cons_append, walkFrom_entry hname, hhere, hsplit]
    exact ih h

/-- A place that is no link is where its names lead. -/
theorem walkFrom_location {loc : Location} (h : t.node loc = some .dir ∨ t.node loc = some .file) :
    walkFrom t create expand [] loc = .ok loc := by
  induction loc using List.reverseRecOn with
  | nil => rfl
  | append_singleton dir name =>
    have hexists : t.node (dir ++ [name]) ≠ none := by
      rcases h with h | h <;> rw [h] <;> simp
    have hdir : t.node ([] ++ dir) = some .dir := t.node_above dir name hexists
    rw [walkFrom_append hdir, List.nil_append, walkFrom_entry (t.entryName dir name hexists)]
    rcases h with h | h
    · rw [h]
      rfl
    · rw [h]
      exact if_pos rfl

/-- Without creating, names lead to what exists and is no link. -/
theorem node_of_walkFrom {cur loc : Location} {names : List FileName}
    (hexpand : ∀ cur names, t.node cur = some .dir → expand cur names = .ok loc →
      t.node loc = some .dir ∨ t.node loc = some .file)
    (hcur : t.node cur = some .dir) (h : walkFrom t false expand cur names = .ok loc) :
    t.node loc = some .dir ∨ t.node loc = some .file := by
  induction names generalizing cur with
  | nil => exact Or.inl (Except.ok.inj h ▸ hcur)
  | cons name rest ih =>
    rw [walkFrom] at h
    split at h
    · exact ih hcur h
    split at h
    · exact ih (node_dropLast hcur) h
    split at h
    · exact absurd h (by simp)
    · next hnode => exact ih hnode h
    · next hnode =>
      split at h
      · exact Or.inr (Except.ok.inj h ▸ hnode)
      · exact absurd h (by simp)
    · next target _ =>
      split at h
      · exact absurd h (by simp)
      refine hexpand _ _ ?_ h
      rw [baseOf]
      split
      · exact t.node_nil
      · exact hcur

theorem node_of_walk {links : Nat} {cur loc : Location} {names : List FileName}
    (hcur : t.node cur = some .dir) (h : walk t false links cur names = .ok loc) :
    t.node loc = some .dir ∨ t.node loc = some .file := by
  induction links generalizing cur names with
  | zero => exact node_of_walkFrom (fun _ _ _ h => absurd h (by simp)) hcur h
  | succ links ih => exact node_of_walkFrom (fun _ _ hdir h => ih hdir h) hcur h

/-- What is found without creating is found with it. -/
theorem walkFrom_create {expandCreate : Location → List FileName → Except Errno Location}
    {cur loc : Location} {names : List FileName}
    (hexpand : ∀ cur names, expand cur names = .ok loc → expandCreate cur names = .ok loc)
    (h : walkFrom t false expand cur names = .ok loc) :
    walkFrom t true expandCreate cur names = .ok loc := by
  induction names generalizing cur with
  | nil => exact h
  | cons name rest ih =>
    rw [walkFrom] at h ⊢
    by_cases hhere : name = [] ∨ name = dotName
    · rw [if_pos hhere] at h ⊢
      exact ih h
    by_cases habove : name = dotDotName
    · rw [if_neg hhere, if_pos habove] at h ⊢
      exact ih h
    rw [if_neg hhere, if_neg habove] at h ⊢
    split at h
    · exact absurd h (by simp)
    · exact ih h
    · exact h
    · split at h
      · exact absurd h (by simp)
      next hne =>
      show (if _ then _ else _) = _
      rw [if_neg hne]
      exact hexpand _ _ h

theorem walk_create {links : Nat} {cur loc : Location} {names : List FileName}
    (h : walk t false links cur names = .ok loc) : walk t true links cur names = .ok loc := by
  induction links generalizing cur names with
  | zero => exact walkFrom_create (fun _ _ h => absurd h (by simp)) h
  | succ links ih => exact walkFrom_create (fun _ _ h => ih h) h

/-! ## Paths of locations -/

theorem node_baseOf (path : List UInt8) : t.node (baseOf t.cwd path) = some .dir := by
  rw [baseOf]
  split
  · exact t.node_nil
  · exact t.node_cwd

theorem node_of_locate {path : List UInt8} {loc : Location} (h : t.locate false path = .ok loc) :
    t.node loc = some .dir ∨ t.node loc = some .file := by
  rw [locate] at h
  split at h
  · exact absurd h (by simp)
  · exact node_of_walk (node_baseOf path) h

end FileTree

theorem head?_render (loc : Location) : (render loc).head? = some slash := by
  rw [render]
  split
  · rfl
  · next hne =>
    obtain ⟨name, loc, rfl⟩ := List.exists_cons_of_ne_nil hne
    rfl

theorem render_ne_nil (loc : Location) : render loc ≠ [] := by
  intro hnil
  have hhead := head?_render loc
  rw [hnil] at hhead
  exact absurd hhead (by simp)

namespace FileTree

variable {t : FileTree} {create : Bool}

/-- The path of a location leads to it. -/
theorem locate_render {loc : Location} (h : t.node loc = some .dir ∨ t.node loc = some .file) :
    t.locate create (render loc) = .ok loc := by
  have hexists : t.node loc ≠ none := by rcases h with h | h <;> rw [h] <;> simp
  have hslash := noSlash_of_mem hexists
  rw [locate, if_neg (render_ne_nil loc), baseOf, if_pos (head?_render loc), maxSymlinks, walk,
    render]
  split
  · next hnil => rw [hnil]; rfl
  · next hne =>
    rw [components_flatMap hne hslash, walkFrom_nil_cons]
    exact walkFrom_location h

theorem locate_render_append {dir : Location} {name : FileName} (hdir : t.node dir ≠ none)
    (hname : slash ∉ name) :
    t.locate create (render dir ++ slash :: name) =
      walk t create maxSymlinks [] (dir ++ [name]) := by
  have hslash := noSlash_of_mem hdir
  have hne : render dir ++ slash :: name ≠ [] := by simp
  have hhead : (render dir ++ slash :: name).head? = some slash := by
    rw [List.head?_append, head?_render]
    rfl
  rw [locate, if_neg hne, baseOf, if_pos hhead, maxSymlinks, walk, walk, render]
  split
  · next hnil =>
    rw [hnil, List.nil_append, List.singleton_append, components,
      ← List.nil_append (slash :: slash :: name),
      List.splitOn_append_cons_self_of_not_mem List.not_mem_nil, ← List.nil_append (slash :: name),
      List.splitOn_append_cons_self_of_not_mem List.not_mem_nil, ← components,
      components_of_noSlash hname, walkFrom_nil_cons, walkFrom_nil_cons]
  · have hnames := components_append_flatMap name List.not_mem_nil hslash
    rw [List.nil_append, components_of_noSlash hname] at hnames
    rw [hnames, walkFrom_nil_cons]

/-- Behind the path of a directory a name is sought in it. -/
theorem locate_in_dir {dir : Location} {name : FileName} (hdir : t.node dir = some .dir)
    (hname : slash ∉ name) :
    t.locate create (render dir ++ slash :: name) = walk t create maxSymlinks dir [name] := by
  rw [locate_render_append (by rw [hdir]; simp) hname, maxSymlinks, walk, walk]
  exact @walkFrom_append t create _ [] dir hdir [name]

/-- Behind the path of a file there is nothing. -/
theorem locate_in_file {loc : Location} {name : FileName} (hloc : t.node loc = some .file)
    (hname : slash ∉ name) :
    t.locate create (render loc ++ slash :: name) = .error .enotdir := by
  have hexists : t.node loc ≠ none := by rw [hloc]; simp
  rw [locate_render_append hexists hname, maxSymlinks, walk]
  induction loc using List.reverseRecOn with
  | nil => exact absurd (t.node_nil.symm.trans hloc) (by simp)
  | append_singleton dir last =>
    have hdir : t.node ([] ++ dir) = some .dir := t.node_above dir last hexists
    rw [List.append_assoc, walkFrom_append hdir, List.nil_append, List.singleton_append,
      walkFrom_entry (t.entryName dir last hexists), hloc]
    exact if_neg (by simp)

/-- A name that is no link leads no further than its directory. -/
theorem isPrefix_of_walk_singleton {links : Nat} {dir loc : Location} {name : FileName}
    (hdots : name ≠ dotDotName)
    (hlink : ∀ target, t.node (dir ++ [name]) ≠ some (.link target))
    (h : walk t create links dir [name] = .ok loc) : dir <+: loc := by
  have hfrom : ∀ expand, walkFrom t create expand dir [name] = .ok loc → dir <+: loc := by
    intro expand h
    rw [walkFrom, if_neg hdots] at h
    split at h
    · exact Except.ok.inj h ▸ List.prefix_rfl
    split at h
    · split at h
      · exact Except.ok.inj h ▸ List.prefix_append _ _
      · exact absurd h (by simp)
    · exact Except.ok.inj h ▸ List.prefix_append _ _
    · rw [if_pos rfl] at h
      exact Except.ok.inj h ▸ List.prefix_append _ _
    · next target htarget => exact absurd htarget (hlink target)
  cases links with
  | zero => exact hfrom _ h
  | succ links => exact hfrom _ h

end FileTree

/-! ## Inside of a directory -/

/-- A path that goes on behind the path of a directory with a slash lies inside of it. -/
theorem isPrefix_of_render_append {t : FileTree} {dir loc : Location} {rest : List UInt8}
    (hdir : t.node dir ≠ none) (hloc : t.node loc ≠ none)
    (h : render loc = render dir ++ slash :: rest) : dir <+: loc := by
  by_cases hnil : dir = []
  · exact hnil ▸ List.nil_prefix
  have hne : loc ≠ [] := by
    rintro rfl
    have hlen := congrArg List.length h
    have hpos := List.length_pos_of_ne_nil (render_ne_nil dir)
    rw [List.length_append, List.length_cons] at hlen
    have hroot : (render []).length = 1 := rfl
    omega
  have hnames := components_append_flatMap rest List.not_mem_nil (FileTree.noSlash_of_mem hdir)
  rw [render, render, if_neg hnil, if_neg hne] at h
  rw [List.nil_append, ← h, components_flatMap hne (FileTree.noSlash_of_mem hloc)] at hnames
  exact ⟨components rest, (List.cons.inj hnames).2.symm⟩

theorem eq_of_render_eq {t : FileTree} {dir loc : Location}
    (hdir : t.node dir = some .dir ∨ t.node dir = some .file)
    (hloc : t.node loc = some .dir ∨ t.node loc = some .file) (h : render loc = render dir) :
    loc = dir := by
  have hlocate := @FileTree.locate_render t false loc hloc
  rw [h, FileTree.locate_render hdir] at hlocate
  exact (Except.ok.inj hlocate).symm

end EchoAi
