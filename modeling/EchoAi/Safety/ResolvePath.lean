import EchoAi.FileTree
import EchoAi.Safety.Config
import EchoAi.Splitting

/-!
# Pinning a path inside the workspace

* `realpath`: the path without links that a path leads to.
* `safetyPathIsWithinWorkspace`, `safetyResolvePathAlloc`: the two functions of the policy.
* `Confined`, `DanglesOut`: what a returned path must not do, and the one thing that it can.
* `confined_iff`: a returned path stays inside unless its last name is a dangling link that leads
  outside.

Memory does not run out, and every directory may be searched.
-/

namespace EchoAi

/-- `PATH_MAX`, with the NUL. -/
def pathMax : Nat := 4096

/-- `realpath` into a buffer of `PATH_MAX` bytes. -/
def realpath (t : FileTree) (path : List UInt8) : Except Errno (List UInt8) :=
  match t.locate false path with
  | .error e => .error e
  | .ok loc => if (render loc).length < pathMax then .ok (render loc) else .error .enametoolong

/-- `safety_path_is_within_workspace`. -/
def safetyPathIsWithinWorkspace (t : FileTree) (cfg : SafetyConfig) (path : List UInt8) : Bool :=
  match cfg.workspace with
  | none => false
  | some workspace =>
    if cfg.mode = .unrestricted then true
    else
      match realpath t workspace, realpath t path with
      | .ok root, .ok canonical =>
        decide (root <+: canonical) &&
          match canonical[root.length]? with
          | none => true
          | some b => b == slash
      | _, _ => false

/-- A path up to its last slash, and behind it. -/
def splitLastSlash : List UInt8 → Option (List UInt8 × List UInt8)
  | [] => none
  | b :: path =>
    match splitLastSlash path with
    | some (dir, name) => some (b :: dir, name)
    | none => if b = slash then some ([], path) else none

/-- The path that is resolved. -/
def candidateOf (root path : List UInt8) : List UInt8 :=
  if path.head? = some slash then path else root ++ slash :: path

/-- `safety_resolve_path_alloc`. -/
def safetyResolvePathAlloc (t : FileTree) :
    (cfg : Option SafetyConfig) → (path : Option CText) → Option (List UInt8)
  | some cfg, some path =>
    match cfg.workspace with
    | none => none
    | some workspace =>
      if cfg.mode = .unrestricted then some path.bytes
      else if (firstInfix dotDotName path.bytes).isSome then none
      else
        match realpath t workspace with
        | .error _ => none
        | .ok root =>
          let candidate := candidateOf root path.bytes
          if pathMax ≤ candidate.length then none
          else
            match realpath t candidate with
            | .ok canonical =>
              if safetyPathIsWithinWorkspace t cfg canonical then some canonical else none
            | .error .enoent =>
              -- The file is not there yet: its directory is resolved, and the name put back.
              match splitLastSlash candidate with
              | none => none
              | some (parentBuf, basename) =>
                if basename = [] then none
                else
                  match realpath t parentBuf with
                  | .error _ => none
                  | .ok parent =>
                    if safetyPathIsWithinWorkspace t cfg parent then
                      some (parent ++ slash :: basename)
                    else none
            | .error _ => none
  | _, _ => none

/-- The file that opening a path for reading, or with `create` for creating, denotes. -/
def opened (t : FileTree) (create : Bool) (path : List UInt8) : Except Errno Location :=
  if pathMax ≤ path.length then .error .enametoolong else t.locate create path

/-- Opening a path denotes no file outside of the workspace. -/
def Confined (t : FileTree) (cfg : SafetyConfig) (path : List UInt8) : Prop :=
  ∀ workspace root, cfg.workspace = some workspace → t.locate false workspace = .ok root →
    ∀ create loc, opened t create path = .ok loc → root <+: loc

/-- The last name of a path is a link to a file that does not exist and would be created outside of
the workspace. -/
def DanglesOut (t : FileTree) (cfg : SafetyConfig) (path : List UInt8) : Prop :=
  ∃ workspace root parentBuf basename dir target loc,
    cfg.workspace = some workspace ∧ t.locate false workspace = .ok root ∧
    splitLastSlash (candidateOf (render root) path) = some (parentBuf, basename) ∧
    t.locate false parentBuf = .ok dir ∧
    t.node (dir ++ [basename]) = some (.link target) ∧
    t.locate false (candidateOf (render root) path) = .error .enoent ∧
    (render dir ++ slash :: basename).length < pathMax ∧
    t.walk true maxSymlinks dir [basename] = .ok loc ∧ ¬root <+: loc

/-! ## Names and slashes -/

theorem splitLastSlash_eq_none {path : List UInt8} (h : splitLastSlash path = none) :
    slash ∉ path := by
  induction path with
  | nil => exact List.not_mem_nil
  | cons b path ih =>
    rw [splitLastSlash] at h
    split at h
    · exact absurd h (by simp)
    next hpath =>
    split at h
    · exact absurd h (by simp)
    next hb =>
    rw [List.mem_cons, not_or]
    exact ⟨fun heq => hb heq.symm, ih hpath⟩

theorem of_splitLastSlash {path dir name : List UInt8}
    (h : splitLastSlash path = some (dir, name)) : path = dir ++ slash :: name ∧ slash ∉ name := by
  induction path generalizing dir with
  | nil => exact absurd h (by simp [splitLastSlash])
  | cons b path ih =>
    rw [splitLastSlash] at h
    split at h
    · next front last hpath =>
      obtain ⟨rfl, rfl⟩ := Prod.mk.inj (Option.some.inj h)
      obtain ⟨hsplit, hlast⟩ := ih hpath
      exact ⟨by rw [hsplit, List.cons_append], hlast⟩
    · next hpath =>
      split at h
      · next hb =>
        obtain ⟨rfl, rfl⟩ := Prod.mk.inj (Option.some.inj h)
        exact ⟨by rw [hb, List.nil_append], splitLastSlash_eq_none hpath⟩
      · exact absurd h (by simp)

/-- The last name is not the directory above, which a path may not contain. -/
theorem ne_dotDotName_of_candidateOf {root path dir name : List UInt8}
    (hpath : ¬(firstInfix dotDotName path).isSome)
    (hsplit : candidateOf root path = dir ++ slash :: name) : name ≠ dotDotName := by
  rintro rfl
  have hfree : ¬dotDotName <:+: path := by
    rintro ⟨before, after, hinfix⟩
    have hdrop : dotDotName <+: path.drop before.length := by
      rw [← hinfix, List.append_assoc, List.drop_left]
      exact List.prefix_append _ _
    obtain ⟨j, _, hj⟩ := exists_firstInfix hdrop
    exact hpath (by rw [hj]; rfl)
  have hdots : dotDotName <:+ candidateOf root path := by
    rw [hsplit]
    exact ⟨dir ++ [slash], by simp⟩
  rw [candidateOf] at hdots
  split at hdots
  · exact hfree hdots.isInfix
  have htail : path <:+ root ++ slash :: path := ⟨root ++ [slash], by simp⟩
  rcases List.suffix_or_suffix_of_suffix hdots htail with hshort | hlong
  · exact hfree hshort.isInfix
  -- A path within two dots: behind a slash it is not two dots.
  have hcases : path = dotDotName ∨ path = [46] ∨ path = [] := by
    have hmem := List.mem_tails _ _ |>.2 hlong
    simpa [dotDotName, List.tails, or_assoc] using hmem
  obtain ⟨front, hfront⟩ := hdots
  rcases hcases with rfl | rfl | rfl
  · exact hfree List.infix_rfl
  · have hlast := congrArg (fun bs => bs.dropLast.getLast?) hfront
    simp [dotDotName, slash] at hlast
  · have hlast := congrArg List.getLast? hfront
    simp [dotDotName, slash] at hlast

/-! ## Canonical paths -/

section Canonical

variable {t : FileTree} {cfg : SafetyConfig}

theorem of_realpath {path canonical : List UInt8} (h : realpath t path = .ok canonical) :
    ∃ loc, t.locate false path = .ok loc ∧ canonical = render loc := by
  rw [realpath] at h
  split at h
  · exact absurd h (by simp)
  next loc hloc =>
  split at h
  · exact ⟨loc, hloc, (Except.ok.inj h).symm⟩
  · exact absurd h (by simp)

theorem locate_of_realpath_enoent {path : List UInt8} (h : realpath t path = .error .enoent) :
    t.locate false path = .error .enoent := by
  rw [realpath] at h
  split at h
  · next hloc => rw [hloc, Except.error.inj h]
  · split at h
    · exact absurd h (by simp)
    · exact absurd h (by simp)

/-- The canonical path of a location that counts as inside is one of a location below the root. -/
theorem isPrefix_of_within {workspace : List UInt8} {root loc : Location}
    (hworkspace : cfg.workspace = some workspace) (hmode : cfg.mode ≠ .unrestricted)
    (hroot : t.locate false workspace = .ok root)
    (hloc : t.node loc = some .dir ∨ t.node loc = some .file)
    (h : safetyPathIsWithinWorkspace t cfg (render loc) = true) : root <+: loc := by
  rw [safetyPathIsWithinWorkspace, hworkspace] at h
  simp only [if_neg hmode] at h
  split at h
  · next rootPath canonical hrootPath hcanonical =>
    obtain ⟨root', hroot', rfl⟩ := of_realpath hrootPath
    obtain rfl := Except.ok.inj (hroot.symm.trans hroot')
    obtain ⟨loc', hloc', rfl⟩ := of_realpath hcanonical
    rw [FileTree.locate_render hloc] at hloc'
    obtain rfl := Except.ok.inj hloc'
    rw [Bool.and_eq_true, decide_eq_true_eq] at h
    obtain ⟨⟨rest, hrest⟩, hnext⟩ := h
    have hnode := FileTree.node_of_locate hroot
    rw [← hrest, List.getElem?_append_right (Nat.le_refl _), Nat.sub_self] at hnext
    cases rest with
    | nil =>
      rw [List.append_nil] at hrest
      rw [eq_of_render_eq hnode hloc hrest.symm]
    | cons b rest =>
      have hb : b = slash := by simpa using hnext
      rw [hb] at hrest
      refine isPrefix_of_render_append (t := t) ?_ ?_ hrest.symm
      · rcases hnode with h | h <;> rw [h] <;> simp
      · rcases hloc with h | h <;> rw [h] <;> simp
  · exact absurd h (by simp)

/-- What a returned path is: the path of a place below the root, or the path of a directory below
the root with a name behind it. -/
theorem of_safetyResolvePathAlloc {path : CText} {r : List UInt8}
    (hmode : cfg.mode ≠ .unrestricted)
    (h : safetyResolvePathAlloc t (some cfg) (some path) = some r) :
    ∃ workspace root, cfg.workspace = some workspace ∧ t.locate false workspace = .ok root ∧
      ((∃ loc, t.locate false (candidateOf (render root) path.bytes) = .ok loc ∧
          root <+: loc ∧ r = render loc) ∨
        ∃ parentBuf basename dir,
          t.locate false (candidateOf (render root) path.bytes) = .error .enoent ∧
          splitLastSlash (candidateOf (render root) path.bytes) = some (parentBuf, basename) ∧
          basename ≠ [] ∧ basename ≠ dotDotName ∧ t.locate false parentBuf = .ok dir ∧
          root <+: dir ∧ r = render dir ++ slash :: basename) := by
  rw [safetyResolvePathAlloc] at h
  split at h
  · exact absurd h (by simp)
  next workspace hworkspace =>
  rw [if_neg hmode] at h
  split at h
  · exact absurd h (by simp)
  next hdots =>
  split at h
  · exact absurd h (by simp)
  next rootPath hrootPath =>
  obtain ⟨root, hroot, rfl⟩ := of_realpath hrootPath
  refine ⟨workspace, root, hworkspace, hroot, ?_⟩
  dsimp only at h
  split at h
  · exact absurd h (by simp)
  split at h
  · next canonical hcanonical =>
    obtain ⟨loc, hloc, rfl⟩ := of_realpath hcanonical
    split at h
    · next hwithin =>
      exact Or.inl ⟨loc, hloc, isPrefix_of_within hworkspace hmode hroot
        (FileTree.node_of_locate hloc) hwithin, (Option.some.inj h).symm⟩
    · exact absurd h (by simp)
  · next hmissing =>
    split at h
    · exact absurd h (by simp)
    next parentBuf basename hsplit =>
    split at h
    · exact absurd h (by simp)
    next hname =>
    split at h
    · exact absurd h (by simp)
    next parent hparent =>
    obtain ⟨dir, hdir, rfl⟩ := of_realpath hparent
    split at h
    · next hwithin =>
      exact Or.inr ⟨parentBuf, basename, dir, locate_of_realpath_enoent hmissing, hsplit, hname,
        ne_dotDotName_of_candidateOf hdots (of_splitLastSlash hsplit).1, hdir,
        isPrefix_of_within hworkspace hmode hroot (FileTree.node_of_locate hdir) hwithin,
        (Option.some.inj h).symm⟩
    · exact absurd h (by simp)
  · exact absurd h (by simp)

/-- A returned path stays inside of the workspace just when its last name is no dangling link that
leads outside. -/
theorem confined_iff {path : CText} {r : List UInt8} (hmode : cfg.mode ≠ .unrestricted)
    (h : safetyResolvePathAlloc t (some cfg) (some path) = some r) :
    Confined t cfg r ↔ ¬DanglesOut t cfg path.bytes := by
  obtain ⟨workspace, root, hworkspace, hroot, hcases⟩ := of_safetyResolvePathAlloc hmode h
  have hsame : ∀ {workspace' root'}, cfg.workspace = some workspace' →
      t.locate false workspace' = .ok root' → root' = root := by
    intro workspace' root' hworkspace' hroot'
    obtain rfl := Option.some.inj (hworkspace.symm.trans hworkspace')
    exact (Except.ok.inj (hroot.symm.trans hroot')).symm
  rcases hcases with ⟨loc, hloc, hinside, rfl⟩ |
    ⟨parentBuf, basename, dir, hmissing, hsplit, hname, hdots, hdir, hinside, rfl⟩
  · -- The file is there: its path has no links any more.
    constructor
    · rintro - ⟨_, root', _, _, _, _, _, hworkspace', hroot', _, _, _, hmissing, _⟩
      obtain rfl := hsame hworkspace' hroot'
      exact absurd (hloc.symm.trans hmissing) (by simp)
    · rintro - workspace' root' hworkspace' hroot' create loc' hopened
      obtain rfl := hsame hworkspace' hroot'
      rw [opened, FileTree.locate_render (FileTree.node_of_locate hloc)] at hopened
      split at hopened
      · exact absurd hopened (by simp)
      · exact Except.ok.inj hopened ▸ hinside
  have hnoSlash := (of_splitLastSlash hsplit).2
  rcases FileTree.node_of_locate hdir with hnode | hnode
  · -- The name is sought in a directory below the root.
    constructor
    · rintro hconfined ⟨workspace', root', parentBuf', basename', dir', target, loc, hworkspace',
        hroot', hsplit', hdir', _, _, hlen, hwalk, houtside⟩
      obtain rfl := hsame hworkspace' hroot'
      obtain ⟨rfl, rfl⟩ := Prod.mk.inj (Option.some.inj (hsplit.symm.trans hsplit'))
      obtain rfl := Except.ok.inj (hdir.symm.trans hdir')
      refine houtside (hconfined workspace' root' hworkspace' hroot' true loc ?_)
      rw [opened, if_neg (Nat.not_le.2 hlen), FileTree.locate_in_dir hnode hnoSlash, hwalk]
    · rintro hdangles workspace' root' hworkspace' hroot' create loc hopened
      obtain rfl := hsame hworkspace' hroot'
      rw [opened, FileTree.locate_in_dir hnode hnoSlash] at hopened
      split at hopened
      · exact absurd hopened (by simp)
      next hlen =>
      by_cases hlink : ∃ target, t.node (dir ++ [basename]) = some (.link target)
      · obtain ⟨target, htarget⟩ := hlink
        have hcreate : t.walk true maxSymlinks dir [basename] = .ok loc := by
          cases create with
          | true => exact hopened
          | false => exact FileTree.walk_create hopened
        by_contra houtside
        exact hdangles ⟨workspace', root', parentBuf, basename, dir, target, loc, hworkspace',
          hroot', hsplit, hdir, htarget, hmissing, Nat.not_le.1 hlen, hcreate, houtside⟩
      · exact hinside.trans (FileTree.isPrefix_of_walk_singleton hdots
          (fun target htarget => hlink ⟨target, htarget⟩) hopened)
  · -- Behind a file there is nothing to open.
    constructor
    · rintro - ⟨_, root', parentBuf', basename', dir', target, _, hworkspace', hroot', hsplit',
        hdir', hlink, _⟩
      obtain rfl := hsame hworkspace' hroot'
      obtain ⟨rfl, rfl⟩ := Prod.mk.inj (Option.some.inj (hsplit.symm.trans hsplit'))
      obtain rfl := Except.ok.inj (hdir.symm.trans hdir')
      have habove := t.node_above dir basename (by rw [hlink]; simp)
      exact absurd (hnode.symm.trans habove) (by simp)
    · rintro - workspace' root' _ _ create loc hopened
      rw [opened, FileTree.locate_in_file hnode hnoSlash] at hopened
      split at hopened <;> exact absurd hopened (by simp)

end Canonical

/-! ## A dangling link -/

/-- The workspace `/w` next to `/e`, and in it the link `l` to the missing file `/e/n`. -/
def linkTree : FileTree :=
  .ofEntries [([[119]], .dir), ([[101]], .dir), ([[119], [108]], .link [47, 101, 47, 110])]
    (by decide)

/-- The policy for that workspace. -/
def linkPolicy : SafetyConfig := { workspace := some [47, 119] }

/-- A new file in the workspace. -/
theorem confined_newFile :
    Confined linkTree linkPolicy [47, 119, 47, 110] ↔ ¬DanglesOut linkTree linkPolicy [110] :=
  @confined_iff linkTree linkPolicy ⟨[110], by decide⟩ _ (by decide) (by decide)

/-- Creating a file through the link leaves the workspace. -/
theorem not_confined_link :
    ¬∀ (t : FileTree) (cfg : SafetyConfig) (path : CText) (r : List UInt8),
      cfg.mode ≠ .unrestricted → safetyResolvePathAlloc t (some cfg) (some path) = some r →
        Confined t cfg r := by
  intro hall
  have hconfined := hall linkTree linkPolicy ⟨[108], by decide⟩ [47, 119, 47, 108] (by decide)
    (by decide)
  have houtside := hconfined [47, 119] [[119]] rfl (by decide) true [[101], [110]] (by decide)
  exact absurd houtside (by decide)

end EchoAi
