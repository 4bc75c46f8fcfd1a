import EchoAi.MakeDir
import EchoAi.Safety.ResolvePath

/-!
# Making the parents of a file

Before a file is written, the directories above it are made where they are missing.

* `writeFileEnsureParents`: the walk from the root of the workspace, with whether it succeeded and
  the tree that it leaves.
* `GrownInside`: nothing but directories inside the root has been added.
* `ensureFrom_inside`: what the walk does from a place inside the root on.
* `ensureParents_inside`: directories are made inside of the workspace only, and after a success
  every parent leads to a place inside of it.

Every directory may be searched.
-/

namespace EchoAi

/-- The walk over the names of the directory.  `fail` says which directories cannot be made for
another reason than the tree. -/
def ensureFrom (fail : Nat → Bool) (cfg : SafetyConfig) :
    (depth : Nat) → FileTree → (pre : List UInt8) → List FileName → Bool × FileTree
  | _, t, _, [] => (true, t)
  | depth, t, pre, name :: rest =>
    -- Nothing stands behind the last slash.
    if name = [] ∧ rest = [] then (true, t)
    else if pathMax ≤ pre.length + 1 + name.length then (false, t)
    else
      let longer := pre ++ slash :: name
      match realpath t longer with
      | .ok check =>
        if safetyPathIsWithinWorkspace t cfg check then ensureFrom fail cfg (depth + 1) t longer rest
        else (false, t)
      | .error .enoent =>
        if fail depth then (false, t)
        else
          match t.mkdir longer with
          | (.failed _, t') => (false, t')
          | (_, t') =>
            match realpath t' longer with
            | .ok check =>
              if safetyPathIsWithinWorkspace t' cfg check then
                ensureFrom fail cfg (depth + 1) t' longer rest
              else (false, t')
            | .error _ => (false, t')
      | .error _ => (false, t)

/-- The text behind a prefix, without the slash before it. -/
def behindSlash (text : List UInt8) : List UInt8 :=
  if text.head? = some slash then text.tail else text

/-- `write_file_ensure_parents`: whether it returned 0, and the tree it leaves. -/
def writeFileEnsureParents (fail : Nat → Bool) (t : FileTree) :
    (cfg : Option SafetyConfig) → (path : Option CText) → Bool × FileTree
  | some cfg, some path =>
    match cfg.workspace with
    | none => (false, t)
    | some workspace =>
      if cfg.mode = .unrestricted then (true, t)
      else if (firstInfix dotDotName path.bytes).isSome then (false, t)
      else
        match realpath t workspace with
        | .error _ => (false, t)
        | .ok root =>
          let candidate := candidateOf root path.bytes
          if pathMax ≤ candidate.length then (false, t)
          else
            match splitLastSlash candidate with
            | none => (false, t)
            | some (dir, basename) =>
              if basename = [] then (false, t)
              else if root <+: dir ∧ (dir[root.length]?).all (· == slash) then
                ensureFrom fail cfg 0 t root (components (behindSlash (dir.drop root.length)))
              else (false, t)
  | _, _ => (false, t)

/-! ## What the walk leaves behind -/

/-- Nothing but directories inside the root has been added. -/
structure GrownInside (root : Location) (t t' : FileTree) : Prop where
  kept : TreeGrows t t'
  inside : ∀ loc, t.node loc = none → t'.node loc ≠ none →
    t'.node loc = some .dir ∧ root <+: loc

theorem GrownInside.refl (root : Location) (t : FileTree) : GrownInside root t t :=
  ⟨TreeGrows.refl t, fun _ hnone hsome => absurd hnone hsome⟩

theorem GrownInside.trans {root : Location} {t t' t'' : FileTree} (h : GrownInside root t t')
    (h' : GrownInside root t' t'') : GrownInside root t t'' where
  kept := h.kept.trans h'.kept
  inside loc hnone hsome := by
    by_cases hmiddle : t'.node loc = none
    · exact h'.inside loc hmiddle hsome
    · rw [h'.kept.node loc hmiddle]
      exact h.inside loc hnone hmiddle

theorem grownInside_withDir {root dir : Location} {t : FileTree} {name : FileName}
    (h : Fresh t dir name) (hroot : root <+: dir) : GrownInside root t (t.withDir h) where
  kept := grows_withDir h
  inside loc hnone hsome := by
    have hnode : (t.withDir h).node loc = nodeWith t (dir ++ [name]) loc := rfl
    rw [hnode, nodeWith] at hsome ⊢
    split at hsome
    · next heq =>
      rw [if_pos heq, heq]
      exact ⟨rfl, hroot.trans (List.prefix_append dir [name])⟩
    · exact absurd hnone hsome

/-- A path leads to a place inside the root. -/
def Reaches (t : FileTree) (root : Location) (path : List UInt8) : Prop :=
  ∃ loc, t.locate false path = .ok loc ∧ root <+: loc

theorem Reaches.mono {t t' : FileTree} {root : Location} {path : List UInt8}
    (h : Reaches t root path) (hkept : TreeGrows t t') : Reaches t' root path := by
  obtain ⟨loc, hloc, hinside⟩ := h
  exact ⟨loc, locate_of_grows hkept hloc, hinside⟩

section Walk

variable {t : FileTree} {cfg : SafetyConfig} {workspace : List UInt8} {root : Location}
  {fail : Nat → Bool}

theorem reaches_of_within (hworkspace : cfg.workspace = some workspace)
    (hmode : cfg.mode ≠ .unrestricted) (hroot : t.locate false workspace = .ok root)
    {path check : List UInt8} (hcheck : realpath t path = .ok check)
    (hwithin : safetyPathIsWithinWorkspace t cfg check = true) : Reaches t root path := by
  obtain ⟨loc, hloc, rfl⟩ := of_realpath hcheck
  exact ⟨loc, hloc, isPrefix_of_within hworkspace hmode hroot (FileTree.node_of_locate hloc) hwithin⟩

/-- What a walk over some names behind a prefix should come to. -/
structure WalksInside (root : Location) (t : FileTree) (pre : List UInt8) (names : List FileName)
    (result : Bool × FileTree) : Prop where
  grown : GrownInside root t result.2
  reaches : result.1 = true → ∀ front name rest, names = front ++ name :: rest → name ≠ [] →
    Reaches result.2 root (pre ++ (front ++ [name]).flatMap (slash :: ·))

theorem walksInside_failed {t' : FileTree} {pre : List UInt8} {names : List FileName}
    (h : GrownInside root t t') : WalksInside root t pre names (false, t') :=
  ⟨h, fun hfalse => absurd hfalse Bool.false_ne_true⟩

/-- A name behind the prefix leads inside, and so do the names behind it. -/
theorem WalksInside.cons {t' : FileTree} {pre : List UInt8} {name : FileName}
    {names : List FileName} {result : Bool × FileTree} (hgrown : GrownInside root t t')
    (hname : Reaches t' root (pre ++ slash :: name))
    (h : WalksInside root t' (pre ++ slash :: name) names result) :
    WalksInside root t pre (name :: names) result := by
  refine ⟨hgrown.trans h.grown, fun hok front last rest hsplit hne => ?_⟩
  cases front with
  | nil =>
    obtain ⟨rfl, -⟩ := List.cons.inj hsplit
    rw [List.nil_append, List.flatMap_singleton]
    exact hname.mono h.grown.kept
  | cons first front =>
    obtain ⟨rfl, hrest⟩ := List.cons.inj hsplit
    have hreaches := h.reaches hok front last rest hrest hne
    rwa [List.append_assoc, ← List.flatMap_cons, ← List.cons_append] at hreaches

/-- **What the walk does from a place inside the root on.** -/
theorem ensureFrom_inside (hworkspace : cfg.workspace = some workspace)
    (hmode : cfg.mode ≠ .unrestricted) (hroot : t.locate false workspace = .ok root) (depth : Nat)
    {pre : List UInt8} (hpre : pre ≠ []) (hreaches : Reaches t root pre) {names : List FileName}
    (hnames : ∀ name ∈ names, slash ∉ name) :
    WalksInside root t pre names (ensureFrom fail cfg depth t pre names) := by
  induction names generalizing t pre depth with
  | nil => exact ⟨GrownInside.refl root t, fun _ front name rest h => absurd h (by simp)⟩
  | cons name rest ih =>
    obtain ⟨hname, hrest⟩ := List.forall_mem_cons.mp hnames
    have hstay := GrownInside.refl root t
    have hlonger : pre ++ slash :: name ≠ [] := by simp
    rw [ensureFrom]
    split
    · next hend =>
      obtain ⟨rfl, rfl⟩ := hend
      refine ⟨hstay, fun _ front last rest' hsplit hne => ?_⟩
      have hlast : last ∈ [[]] := by
        rw [hsplit]
        exact List.mem_append_right front List.mem_cons_self
      exact absurd (List.mem_singleton.mp hlast) hne
    split
    · exact walksInside_failed hstay
    dsimp only
    split
    · next check hcheck =>
      split
      · next hwithin =>
        have hhere := reaches_of_within hworkspace hmode hroot hcheck hwithin
        exact WalksInside.cons hstay hhere (ih hroot (depth + 1) hlonger hhere hrest)
      · exact walksInside_failed hstay
    · next hmissing =>
      obtain ⟨dir, hdir, hinside⟩ := hreaches
      have hne := ne_nil_of_locate_enoent hpre hname hdir (locate_of_realpath_enoent hmissing)
      have hgrown : GrownInside root t (t.mkdir (pre ++ slash :: name)).2 := by
        rcases mkdir_behind hpre hname hne hdir with hsame | ⟨hfresh, hmade⟩
        · rw [hsame]
          exact hstay
        · rw [hmade]
          exact grownInside_withDir hfresh hinside
      split
      · exact walksInside_failed hstay
      cases hmkdir : t.mkdir (pre ++ slash :: name) with
      | mk answer t' =>
        rw [hmkdir] at hgrown
        have hroot' := locate_of_grows hgrown.kept hroot
        have hagain : WalksInside root t pre (name :: rest)
            (match realpath t' (pre ++ slash :: name) with
            | .ok check =>
              if safetyPathIsWithinWorkspace t' cfg check then
                ensureFrom fail cfg (depth + 1) t' (pre ++ slash :: name) rest
              else (false, t')
            | .error _ => (false, t')) := by
          split
          · next check hcheck =>
            split
            · next hwithin =>
              have hhere := reaches_of_within hworkspace hmode hroot' hcheck hwithin
              exact WalksInside.cons hgrown hhere (ih hroot' (depth + 1) hlonger hhere hrest)
            · exact walksInside_failed hgrown
          · exact walksInside_failed hgrown
        cases answer with
        | made => exact hagain
        | there => exact hagain
        | failed errno => exact walksInside_failed hgrown
    · exact walksInside_failed hstay

end Walk

/-! ## The parents of a target -/

/-- What has been added to a tree is directories inside of the workspace. -/
def MadeInside (cfg : SafetyConfig) (t t' : FileTree) : Prop :=
  ∀ loc, t'.node loc ≠ t.node loc →
    t.node loc = none ∧ t'.node loc = some .dir ∧
    ∃ workspace root, cfg.workspace = some workspace ∧ t.locate false workspace = .ok root ∧
      root <+: loc

/-- Every parent of a target below the root leads to a place inside of the workspace. -/
def ParentsReach (cfg : SafetyConfig) (t t' : FileTree) (path : List UInt8) : Prop :=
  ∃ workspace root, cfg.workspace = some workspace ∧ t.locate false workspace = .ok root ∧
    ∀ names name rest, (∀ n ∈ names ++ [name], slash ∉ n) → name ≠ [] →
      candidateOf (render root) path =
        render root ++ (names ++ [name]).flatMap (slash :: ·) ++ slash :: rest →
      Reaches t' root (render root ++ (names ++ [name]).flatMap (slash :: ·))

section Target

variable {t : FileTree} {cfg : SafetyConfig} {root : Location} {fail : Nat → Bool} {path : CText}

/-- The walk is refused, or it goes over the names of the directory of the target. -/
theorem writeFileEnsureParents_cases (hmode : cfg.mode ≠ .unrestricted) (fail : Nat → Bool)
    (t : FileTree) (path : CText) :
    writeFileEnsureParents fail t (some cfg) (some path) = (false, t) ∨
      ∃ workspace root dir basename, cfg.workspace = some workspace ∧
        t.locate false workspace = .ok root ∧
        splitLastSlash (candidateOf (render root) path.bytes) = some (dir, basename) ∧
        render root <+: dir ∧ (dir[(render root).length]?).all (· == slash) = true ∧
        writeFileEnsureParents fail t (some cfg) (some path) =
          ensureFrom fail cfg 0 t (render root)
            (components (behindSlash (dir.drop (render root).length))) := by
  rw [writeFileEnsureParents]
  split
  · exact Or.inl rfl
  next workspace hworkspace =>
  rw [if_neg hmode]
  split
  · exact Or.inl rfl
  split
  · exact Or.inl rfl
  next rootPath hrootPath =>
  obtain ⟨root, hroot, rfl⟩ := of_realpath hrootPath
  dsimp only
  split
  · exact Or.inl rfl
  split
  · exact Or.inl rfl
  next dir basename hsplit =>
  split
  · exact Or.inl rfl
  split
  · next hrooted =>
    exact Or.inr ⟨workspace, root, dir, basename, hworkspace, hroot, hsplit, hrooted.1, hrooted.2, rfl⟩
  · exact Or.inl rfl

theorem madeInside_of_grownInside {t' : FileTree} {workspace : List UInt8}
    (hworkspace : cfg.workspace = some workspace) (hroot : t.locate false workspace = .ok root)
    (h : GrownInside root t t') : MadeInside cfg t t' := by
  intro loc hchanged
  by_cases hnone : t.node loc = none
  · obtain ⟨hdir, hinside⟩ := h.inside loc hnone (hnone ▸ hchanged)
    exact ⟨hnone, hdir, workspace, root, hworkspace, hroot, hinside⟩
  · exact absurd (h.kept.node loc hnone) hchanged

/-- The names that the walk goes over are those of the candidate behind the root. -/
theorem names_of_candidate {rootPath candidate dir basename rest : List UInt8}
    {names : List FileName} (hsplit : splitLastSlash candidate = some (dir, basename))
    (hbelow : rootPath <+: dir) (hslash : (dir[rootPath.length]?).all (· == slash) = true)
    (hnames : ∀ n ∈ names, slash ∉ n)
    (hcandidate : candidate = rootPath ++ names.flatMap (slash :: ·) ++ slash :: rest) :
    names <+: components (behindSlash (dir.drop rootPath.length)) := by
  obtain ⟨hcut, hbasename⟩ := of_splitLastSlash hsplit
  obtain ⟨tail, rfl⟩ := hbelow
  rw [List.getElem?_append_right (Nat.le_refl _), Nat.sub_self] at hslash
  rw [List.drop_left]
  have htail : tail ++ slash :: basename = names.flatMap (slash :: ·) ++ slash :: rest := by
    rw [hcandidate, List.append_assoc, List.append_assoc] at hcut
    exact (List.append_cancel_left hcut).symm
  have hleft := components_append_flatMap rest List.not_mem_nil hnames
  rw [List.nil_append, ← htail] at hleft
  have hrest : components rest ≠ [] := List.splitOn_ne_nil slash rest
  cases tail with
  | nil =>
    have hnil : names = [] := by
      rw [List.nil_append, ← List.nil_append (slash :: basename), components_append_slash,
        components_of_noSlash hbasename] at hleft
      have hone : [basename] = names ++ components rest := (List.cons.inj hleft).2
      have hlength := congrArg List.length hone
      have hpos := List.length_pos_of_ne_nil hrest
      rw [List.length_append, List.length_singleton] at hlength
      exact List.length_eq_zero_iff.mp (by omega)
    rw [hnil]
    exact List.nil_prefix
  | cons b tail =>
    obtain rfl : b = slash := by simpa using hslash
    rw [behindSlash, List.head?_cons, if_pos rfl, List.tail_cons]
    rw [List.cons_append, ← List.nil_append (slash :: (tail ++ slash :: basename)),
      components_append_slash, components_append_slash, components_of_noSlash hbasename] at hleft
    have hnames' : components tail ++ [basename] = names ++ components rest := (List.cons.inj hleft).2
    have hbelow : names <+: components tail ++ [basename] := hnames' ▸ List.prefix_append _ _
    rcases List.prefix_concat_iff.mp hbelow with hall | hshort
    · exact absurd (List.append_right_eq_self.mp (hnames'.symm.trans hall.symm)) hrest
    · exact hshort

/-- **Directories are made inside of the workspace only**, and after a success every parent of the
target below the root leads to a place inside. -/
theorem ensureParents_inside (hmode : cfg.mode ≠ .unrestricted) (fail : Nat → Bool) (t : FileTree)
    (path : CText) :
    MadeInside cfg t (writeFileEnsureParents fail t (some cfg) (some path)).2 ∧
      ((writeFileEnsureParents fail t (some cfg) (some path)).1 = true →
        ParentsReach cfg t (writeFileEnsureParents fail t (some cfg) (some path)).2 path.bytes) := by
  rcases writeFileEnsureParents_cases hmode fail t path with heq |
    ⟨workspace, root, dir, basename, hworkspace, hroot, hsplit, hbelow, hslash, heq⟩
  · rw [heq]
    exact ⟨fun loc hchanged => absurd rfl hchanged, fun h => absurd h Bool.false_ne_true⟩
  · have hstart : Reaches t root (render root) :=
      ⟨root, FileTree.locate_render (FileTree.node_of_locate hroot), List.prefix_rfl⟩
    have hnoSlash : ∀ name ∈ components (behindSlash (dir.drop (render root).length)),
        slash ∉ name := fun name hname => noSlash_of_mem_components hname
    have hwalk : WalksInside root t (render root) _ (ensureFrom fail cfg 0 t (render root) _) :=
      ensureFrom_inside hworkspace hmode hroot 0 (render_ne_nil root) hstart hnoSlash
    rw [heq]
    refine ⟨madeInside_of_grownInside hworkspace hroot hwalk.grown, fun hok => ?_⟩
    refine ⟨workspace, root, hworkspace, hroot, fun names name rest hnames hne hcandidate => ?_⟩
    obtain ⟨behind, hbehind⟩ := names_of_candidate hsplit hbelow hslash hnames hcandidate
    exact hwalk.reaches hok names name behind (by rw [← hbehind]; simp) hne

end Target

/-- The target `d/e/n` in the workspace `/w`, where there is no `d`. -/
def newTarget : CText := ⟨[100, 47, 101, 47, 110], by decide⟩

theorem ensureParents_newTarget :
    (writeFileEnsureParents (fun _ => false) linkTree (some linkPolicy) (some newTarget)).1 = true ∧
      MadeInside linkPolicy linkTree
        (writeFileEnsureParents (fun _ => false) linkTree (some linkPolicy) (some newTarget)).2 ∧
      ParentsReach linkPolicy linkTree
        (writeFileEnsureParents (fun _ => false) linkTree (some linkPolicy) (some newTarget)).2
        newTarget.bytes := by
  have hok : (writeFileEnsureParents (fun _ => false) linkTree (some linkPolicy)
      (some newTarget)).1 = true := by decide +kernel
  have hmode : linkPolicy.mode ≠ .unrestricted := by decide
  have hinside := ensureParents_inside hmode (fun _ => false) linkTree newTarget
  exact ⟨hok, hinside.1, hinside.2 hok⟩

end EchoAi
