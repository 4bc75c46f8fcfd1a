import EchoAi.Faults
import EchoAi.Safety.ResolvePath

/-!
# Serving static files

* `staticRequestPathSafe`, `openStaticFileBeneath`, `serveStatic`: from the path of a request to a file.
* `serverResponse`: the response, whose body is a C string.
* `Served`: the file that a path is answered with.
* `openStaticFileBeneath_eq`: the names of a canonical path are found again without links.
* `delivers_iff`: a response is the whole file just when there is no NUL in it.

Every file may be opened and every directory searched, and the tree does not change during a call.
-/

namespace EchoAi.Static

/-! ## Responses -/

/-- What may fail in a call, with the response not sent or another one sent. -/
inductive ServeSite where
  | fdopen
  | content
  | text
  | request
  | write
  deriving DecidableEq, Repr

/-- A response that was sent. -/
structure Response where
  status : Nat
  contentType : String
  contentLength : Nat
  body : List UInt8
  deriving DecidableEq, Repr

/-- `server_response` for a client of its own that is no websocket, with a body. -/
def serverResponse (fail : Faults ServeSite) (status : Nat) (contentType : String)
    (body : List UInt8) : Option Response :=
  if fail .text || fail .request || fail .write then none
  else some { status, contentType, contentLength := (cString body).length, body := cString body }

/-- `server_response_error`; the messages have nothing to escape. -/
def serverResponseError (fail : Faults ServeSite) (status : Nat) (msg : String) : Option Response :=
  serverResponse fail status "application/json" (ascii ("\x7b\"error\":\"" ++ msg ++ "\"\x7d"))

/-! ## Files -/

/-- `mime_type`, by the last dot of the path. -/
def mimeType (path : List UInt8) : String :=
  if 46 ∉ path then "application/octet-stream"
  else
    let ext := path.rtakeWhile (· ≠ 46)
    if ext = ascii "html" then "text/html; charset=utf-8"
    else if ext = ascii "css" then "text/css; charset=utf-8"
    else if ext = ascii "js" then "application/javascript; charset=utf-8"
    else if ext = ascii "json" then "application/json"
    else if ext = ascii "png" then "image/png"
    else if ext = ascii "svg" then "image/svg+xml"
    else if ext = ascii "ico" then "image/x-icon"
    else "application/octet-stream"

/-- `static_request_path_safe` -/
def staticRequestPathSafe (path : List UInt8) : Bool :=
  path.head? = some slash && !path.contains 92 &&
    (components path).all fun segment => segment ≠ dotName && segment ≠ dotDotName

/-- The comparison of a path with the root. -/
def isBeneath (root filepath : List UInt8) : Bool :=
  root.isPrefixOf filepath &&
    match filepath[root.length]? with
    | none => true
    | some c => c = slash

/-- `openat` of a directory, without following a link, of a directory only where there are further
names. -/
def openat (t : FileTree) (dir : Location) (name : FileName) (directory : Bool) : Option Location :=
  if name = dotName then some dir
  else if name = dotDotName then some dir.dropLast
  else
    match t.node (dir ++ [name]) with
    | some .dir => some (dir ++ [name])
    | some .file => if directory then none else some (dir ++ [name])
    | _ => none

/-- The loop of `open_static_file_beneath`. -/
def openSegments (t : FileTree) : (dir : Location) → List FileName → Option Location
  | dir, [] => some dir
  | dir, segment :: next => (openat t dir segment (next ≠ [])).bind fun fd => openSegments t fd next

/-- `open_static_file_beneath` -/
def openStaticFileBeneath (t : FileTree) (root filepath : List UInt8) : Option Location :=
  if !isBeneath root filepath then none
  else
    let relative := (filepath.drop root.length).dropWhile (· = slash)
    if relative = [] ∨ pathMax ≤ relative.length then none
    else
      match t.locate false root with
      | .error _ => none
      | .ok dir =>
        if t.node dir ≠ some .dir then none
        else openSegments t dir ((components relative).filter (· ≠ []))

/-- `realpath` of `frontend/dist`. -/
def distPath : List UInt8 := ascii "frontend/dist"

/-- `snprintf` into a buffer of `PATH_MAX` bytes; absent when the text does not fit. -/
def pathText (text : List UInt8) : Option (List UInt8) :=
  if pathMax ≤ text.length then none else some text

/-- The canonical path that a request leads to, or the response that says why there is none. -/
def resolveStatic (t : FileTree) (root path : List UInt8) : Except (Nat × String) (List UInt8) :=
  match pathText (root ++ if path = [slash] then ascii "/index.html" else path) with
  | none => .error (400, "static path too long")
  | some candidate =>
    match realpath t candidate with
    | .ok filepath => .ok filepath
    | .error _ =>
      match pathText (root ++ path ++ ascii "/index.html") with
      | none => .error (404, "not found")
      | some candidate =>
        match realpath t candidate with
        | .ok filepath => .ok filepath
        | .error _ => .error (404, "not found")

/-- `serve_static`, in a tree whose files have contents. -/
def serveStatic (fail : Faults ServeSite) (t : FileTree) (contents : Location → List UInt8)
    (path : List UInt8) : Option Response :=
  if !staticRequestPathSafe path then serverResponseError fail 400 "invalid static path"
  else
    match realpath t distPath with
    | .error _ => serverResponseError fail 404 "not found"
    | .ok root =>
      match resolveStatic t root path with
      | .error (status, msg) => serverResponseError fail status msg
      | .ok filepath =>
        if !isBeneath root filepath then serverResponseError fail 404 "not found"
        else
          match openStaticFileBeneath t root filepath with
          | none => serverResponseError fail 404 "not found"
          | some fd =>
            if t.node fd ≠ some .file || fail .fdopen then serverResponseError fail 404 "not found"
            else if (contents fd).length = 0 ∨ 10485760 < (contents fd).length then
              serverResponseError fail 500 "file too large"
            else if fail .content then serverResponseError fail 500 "oom"
            else serverResponse fail 200 (mimeType filepath) (contents fd)

/-! ## What is served -/

/-- The file that a request is answered with. -/
structure Served (t : FileTree) (contents : Location → List UInt8) (path : List UInt8)
    (root loc : Location) : Prop where
  safe : staticRequestPathSafe path = true
  dist : realpath t distPath = .ok (render root)
  dir : t.node root = some .dir
  resolved : resolveStatic t (render root) path = .ok (render loc)
  beneath : isBeneath (render root) (render loc) = true
  file : t.node loc = some .file
  size : 0 < (contents loc).length ∧ (contents loc).length ≤ 10485760

/-- The response is the file below the root that the path leads to. -/
def Delivers (t : FileTree) (contents : Location → List UInt8) (path : List UInt8)
    (resp : Response) : Prop :=
  ∃ root loc, t.locate false distPath = .ok root ∧ root <+: loc ∧ t.node loc = some .file ∧
    resolveStatic t (render root) path = .ok (render loc) ∧ resp.body = contents loc ∧
    resp.contentLength = (contents loc).length

/-! ## Opening without links -/

section Opening

variable {t : FileTree} {root loc : Location}

/-- The names of a location lead to it. -/
theorem openSegments_eq {dir names : Location}
    (h : t.node (dir ++ names) = some .dir ∨ t.node (dir ++ names) = some .file) :
    openSegments t dir names = some (dir ++ names) := by
  induction names generalizing dir with
  | nil => rw [openSegments, List.append_nil]
  | cons name rest ih =>
    have hsplit : dir ++ name :: rest = (dir ++ [name]) ++ rest := by simp
    rw [hsplit] at h
    have hexists : t.node (dir ++ [name]) ≠ none := by
      cases rest with
      | nil =>
        rw [List.append_nil] at h
        rcases h with h | h <;> rw [h] <;> simp
      | cons next rest =>
        rw [FileTree.node_of_append (List.cons_ne_nil next rest)
          (by rcases h with h | h <;> rw [h] <;> simp)]
        simp
    have hname : EntryName name := t.entryName dir name hexists
    have hopen : openat t dir name (rest ≠ []) = some (dir ++ [name]) := by
      rw [openat, if_neg hname.ne_dot, if_neg hname.ne_dotDot]
      cases rest with
      | nil =>
        rw [List.append_nil] at h
        rcases h with h | h
        · rw [h]
        · rw [h]
          rfl
      | cons next rest =>
        rw [FileTree.node_of_append (List.cons_ne_nil next rest)
          (by rcases h with h | h <;> rw [h] <;> simp)]
    rw [openSegments, hopen, Option.bind_some, ih h, hsplit]

theorem isBeneath_iff {root filepath : List UInt8} : isBeneath root filepath = true ↔
    filepath = root ∨ ∃ rest, filepath = root ++ slash :: rest := by
  rw [isBeneath, Bool.and_eq_true, List.isPrefixOf_iff_prefix]
  constructor
  · rintro ⟨⟨rest, rfl⟩, hnext⟩
    cases rest with
    | nil => exact Or.inl (List.append_nil root)
    | cons c rest =>
      rw [List.getElem?_append_right (Nat.le_refl _), Nat.sub_self] at hnext
      obtain rfl : c = slash := of_decide_eq_true hnext
      exact Or.inr ⟨rest, rfl⟩
  · rintro (rfl | ⟨rest, rfl⟩)
    · refine ⟨List.prefix_rfl, ?_⟩
      rw [List.getElem?_eq_none (Nat.le_refl _)]
    · refine ⟨List.prefix_append _ _, ?_⟩
      rw [List.getElem?_append_right (Nat.le_refl _), Nat.sub_self]
      rfl

/-- A path below another one goes on with names. -/
theorem names_of_isBeneath (hroot : t.node root = some .dir)
    (hloc : t.node loc = some .dir ∨ t.node loc = some .file) (hne : loc ≠ root)
    (h : isBeneath (render root) (render loc) = true) :
    ∃ name names, loc = root ++ name :: names ∧
      render loc = render root ++ slash :: (name ++ names.flatMap (slash :: ·)) := by
  have hexists : t.node loc ≠ none := by rcases hloc with h | h <;> rw [h] <;> simp
  rcases isBeneath_iff.1 h with heq | ⟨rest, hrest⟩
  · exact absurd (eq_of_render_eq (Or.inl hroot) hloc heq) hne
  obtain ⟨names, rfl⟩ := isPrefix_of_render_append (by rw [hroot]; simp) hexists hrest
  cases names with
  | nil => exact absurd (List.append_nil root) hne
  | cons name names =>
    refine ⟨name, names, rfl, ?_⟩
    have hrender : render (root ++ name :: names) =
        root.flatMap (slash :: ·) ++ slash :: (name ++ names.flatMap (slash :: ·)) := by
      rw [render, if_neg (by simp), List.flatMap_append, List.flatMap_cons, List.cons_append]
    by_cases hnil : root = []
    · -- the path of the root ends with a slash, and no name begins with one
      exfalso
      subst hnil
      have hname := FileTree.entryName_of_mem hexists name (by simp)
      rw [hrender, render, if_pos rfl] at hrest
      have htail := (List.cons.inj hrest).2
      obtain ⟨c, cs, rfl⟩ := List.exists_cons_of_ne_nil hname.ne_nil
      refine hname.noSlash ?_
      rw [← (List.cons.inj htail).1]
      exact List.mem_cons_self
    · rw [hrender]
      congr 1
      rw [render, if_neg hnil]

/-- The names of a canonical path are found again without links. -/
theorem openStaticFileBeneath_eq (hroot : t.node root = some .dir)
    (hloc : t.node loc = some .dir ∨ t.node loc = some .file)
    (hlength : (render loc).length < pathMax)
    (h : isBeneath (render root) (render loc) = true) :
    openStaticFileBeneath t (render root) (render loc) = if loc = root then none else some loc := by
  have hbeneath : ¬(!isBeneath (render root) (render loc)) = true := by rw [h]; nofun
  rw [openStaticFileBeneath, if_neg hbeneath]
  by_cases heq : loc = root
  · subst heq
    rw [List.drop_length, if_pos rfl]
    exact if_pos (Or.inl rfl)
  obtain ⟨name, names, rfl, hrender⟩ := names_of_isBeneath hroot hloc heq h
  have hexists : t.node (root ++ name :: names) ≠ none := by
    rcases hloc with h | h <;> rw [h] <;> simp
  have hentry : ∀ n ∈ name :: names, EntryName n := fun n hn =>
    FileTree.entryName_of_mem hexists n (List.mem_append_right root hn)
  obtain ⟨c, cs, hname⟩ := List.exists_cons_of_ne_nil (hentry name List.mem_cons_self).ne_nil
  have hc : c ≠ slash := by
    rintro rfl
    refine (hentry name List.mem_cons_self).noSlash ?_
    rw [hname]
    exact List.mem_cons_self
  -- behind the root and its slash stand the names
  have hrelative : ((render (root ++ name :: names)).drop (render root).length).dropWhile
      (· = slash) = name ++ names.flatMap (slash :: ·) := by
    rw [hrender, List.drop_left, List.dropWhile_cons_of_pos (by simp), hname, List.cons_append,
      List.dropWhile_cons_of_neg (by simpa using hc)]
  have hcomponents : components (name ++ names.flatMap (slash :: ·)) = name :: names := by
    have hall := components_flatMap (List.cons_ne_nil name names) fun n hn => (hentry n hn).noSlash
    rw [List.flatMap_cons, List.cons_append, components, ← List.nil_append (slash :: _),
      List.splitOn_append_cons_self_of_not_mem List.not_mem_nil] at hall
    exact (List.cons.inj hall).2
  have hfilter : (name :: names).filter (· ≠ []) = name :: names :=
    List.filter_eq_self.2 fun n hn => decide_eq_true (hentry n hn).ne_nil
  have hshort : ¬(name ++ names.flatMap (slash :: ·) = [] ∨
      pathMax ≤ (name ++ names.flatMap (slash :: ·)).length) := by
    rw [hrender, List.length_append, List.length_cons] at hlength
    refine not_or.2 ⟨?_, by omega⟩
    rw [hname]
    exact List.cons_ne_nil _ _
  rw [hrelative, if_neg heq]
  dsimp only
  rw [if_neg hshort, FileTree.locate_render (Or.inl hroot)]
  dsimp only
  rw [if_neg (not_not_intro hroot), hcomponents, hfilter, openSegments_eq hloc]

end Opening

/-! ## The responses -/

section Responses

variable {fail : Faults ServeSite} {t : FileTree} {contents : Location → List UInt8}
  {path : List UInt8} {root loc : Location}

theorem of_realpath {path filepath : List UInt8} (h : realpath t path = .ok filepath) :
    ∃ loc, filepath = render loc ∧ t.locate false path = .ok loc ∧
      (t.node loc = some .dir ∨ t.node loc = some .file) ∧ (render loc).length < pathMax := by
  rw [realpath] at h
  split at h
  · exact absurd h (by simp)
  · next loc hlocate =>
    split at h
    · next hlength =>
      exact ⟨loc, (Except.ok.inj h).symm, hlocate, FileTree.node_of_locate hlocate, hlength⟩
    · exact absurd h (by simp)

theorem of_resolveStatic {root filepath : List UInt8}
    (h : resolveStatic t root path = .ok filepath) :
    ∃ loc, filepath = render loc ∧ (t.node loc = some .dir ∨ t.node loc = some .file) ∧
      (render loc).length < pathMax := by
  have hreal : ∀ candidate, realpath t candidate = .ok filepath → ∃ loc, filepath = render loc ∧
      (t.node loc = some .dir ∨ t.node loc = some .file) ∧ (render loc).length < pathMax := by
    intro candidate hreal
    obtain ⟨loc, hloc, -, hrest⟩ := of_realpath hreal
    exact ⟨loc, hloc, hrest⟩
  rw [resolveStatic] at h
  split at h
  · exact absurd h nofun
  split at h
  · next hfound => exact hreal _ (Except.ok.inj h ▸ hfound)
  split at h
  · exact absurd h nofun
  split at h
  · next hfound => exact hreal _ (Except.ok.inj h ▸ hfound)
  · exact absurd h nofun

/-- What the path of a request leads to and what is opened for it are the same. -/
theorem Served.opened (h : Served t contents path root loc) :
    openStaticFileBeneath t (render root) (render loc) = some loc := by
  obtain ⟨loc', hloc', hnode, hlength⟩ := of_resolveStatic h.resolved
  have heq : loc = loc' := eq_of_render_eq hnode (Or.inr h.file) hloc'
  subst heq
  have hne : loc ≠ root := by
    rintro rfl
    exact absurd (h.dir.symm.trans h.file) nofun
  rw [openStaticFileBeneath_eq h.dir hnode hlength h.beneath, if_neg hne]

theorem status_of_serverResponse {status : Nat} {contentType : String} {body : List UInt8}
    {resp : Response} (h : serverResponse fail status contentType body = some resp) :
    resp.status = status := by
  rw [serverResponse] at h
  split at h
  · exact absurd h nofun
  · rw [← Option.some.inj h]

/-- Without failures a file is sent up to its first NUL. -/
theorem Served.serveStatic (h : Served t contents path root loc) (hfail : ∀ site, fail site = false) :
    serveStatic fail t contents path =
      some
        { status := 200, contentType := mimeType (render loc),
          contentLength := (cString (contents loc)).length, body := cString (contents loc) } := by
  have hsize : ¬((contents loc).length = 0 ∨ 10485760 < (contents loc).length) := by
    have hbounds := h.size
    omega
  rw [Static.serveStatic, h.safe, h.dist]
  simp only [Bool.not_true, Bool.false_eq_true, if_false, h.resolved, h.beneath, h.opened, h.file,
    hfail, ne_eq, not_true_eq_false, decide_false, Bool.or_false, if_neg hsize, serverResponse]

theorem status_ne_of_resolveStatic {root : List UInt8} {status : Nat} {msg : String}
    (h : resolveStatic t root path = .error (status, msg)) : status ≠ 200 := by
  have herror : ∀ {s : Nat} {m : String}, s ≠ 200 →
      (Except.error (s, m) : Except (Nat × String) (List UInt8)) = .error (status, msg) →
      status ≠ 200 := by
    intro s m hs heq
    rwa [← (Prod.mk.inj (Except.error.inj heq)).1]
  rw [resolveStatic] at h
  split at h
  · exact herror (by decide) h
  split at h
  · exact absurd h nofun
  split at h
  · exact herror (by decide) h
  split at h
  · exact absurd h nofun
  · exact herror (by decide) h

/-- The root is a directory where something is opened beneath it. -/
theorem dir_of_open {filepath : List UInt8} {fd : Location}
    (hroot : t.node root = some .dir ∨ t.node root = some .file)
    (h : openStaticFileBeneath t (render root) filepath = some fd) : t.node root = some .dir := by
  rw [openStaticFileBeneath, FileTree.locate_render hroot] at h
  split at h
  · exact absurd h nofun
  dsimp only at h
  split at h
  · exact absurd h nofun
  split at h
  · exact absurd h nofun
  · next hdir => exact not_not.1 hdir

theorem not_ok_of_error {status : Nat} {msg : String} {resp : Response} (hne : status ≠ 200)
    (h : serverResponseError fail status msg = some resp) : resp.status ≠ 200 := by
  rwa [status_of_serverResponse h]

/-- A file is sent when the path leads to it. -/
theorem served_of_serveStatic {resp : Response} (h : serveStatic fail t contents path = some resp)
    (hstatus : resp.status = 200) :
    (∀ site, fail site = false) ∧ ∃ root loc, Served t contents path root loc ∧
      resp =
        { status := 200, contentType := mimeType (render loc),
          contentLength := (cString (contents loc)).length, body := cString (contents loc) } := by
  rw [Static.serveStatic] at h
  split at h
  · exact absurd hstatus (not_ok_of_error (by decide) h)
  next hsafe =>
  split at h
  · exact absurd hstatus (not_ok_of_error (by decide) h)
  next root hdist =>
  obtain ⟨rootLoc, rfl, -, hrootNode, -⟩ := of_realpath hdist
  split at h
  · next status msg hresolve =>
    exact absurd hstatus (not_ok_of_error (status_ne_of_resolveStatic hresolve) h)
  next filepath hresolve =>
  obtain ⟨loc, rfl, hnode, hlength⟩ := of_resolveStatic hresolve
  split at h
  · exact absurd hstatus (not_ok_of_error (by decide) h)
  next hbeneath =>
  split at h
  · exact absurd hstatus (not_ok_of_error (by decide) h)
  next fd hopen =>
  split at h
  · exact absurd hstatus (not_ok_of_error (by decide) h)
  next hfile =>
  split at h
  · exact absurd hstatus (not_ok_of_error (by decide) h)
  next hsize =>
  split at h
  · exact absurd hstatus (not_ok_of_error (by decide) h)
  next hcontent =>
  rw [Bool.not_eq_true', Bool.not_eq_false] at hsafe hbeneath
  have hdir := dir_of_open hrootNode hopen
  have hfd := openStaticFileBeneath_eq hdir hnode hlength hbeneath
  rw [hopen] at hfd
  split at hfd
  · exact absurd hfd nofun
  obtain rfl : fd = loc := Option.some.inj hfd
  rw [Bool.or_eq_true, decide_eq_true_iff, not_or, not_not] at hfile
  rw [serverResponse] at h
  split at h
  · exact absurd h nofun
  next hsent =>
  rw [Bool.or_eq_true, Bool.or_eq_true, not_or, not_or] at hsent
  refine ⟨fun site => ?_, rootLoc, fd, ⟨hsafe, hdist, hdir, hresolve, hbeneath, hfile.1, by omega⟩,
    (Option.some.inj h).symm⟩
  cases site with
  | fdopen => exact eq_false_of_ne_true hfile.2
  | content => exact eq_false_of_ne_true hcontent
  | text => exact eq_false_of_ne_true hsent.1.1
  | request => exact eq_false_of_ne_true hsent.1.2
  | write => exact eq_false_of_ne_true hsent.2

end Responses

/-! ## The whole file -/

/-- Every response with a file is the whole of a file below the root just when the file that would be
sent, if nothing fails, has no NUL in it. -/
theorem delivers_iff (fail : Faults ServeSite) (t : FileTree) (contents : Location → List UInt8)
    (path : List UInt8) :
    (∀ resp, serveStatic fail t contents path = some resp → resp.status = 200 →
        Delivers t contents path resp) ↔
      ((∀ site, fail site = false) → ∀ root loc, Served t contents path root loc →
        0 ∉ contents loc) := by
  constructor
  · intro hall hfail root loc hserved
    obtain ⟨root', loc', hroot', -, hfile', hresolved', hbody, -⟩ :=
      hall _ (hserved.serveStatic hfail) rfl
    obtain ⟨rootLoc, hrender, hlocate, hnode, -⟩ := of_realpath hserved.dist
    have hrootEq : root = rootLoc := eq_of_render_eq hnode (Or.inl hserved.dir) hrender
    obtain rfl : root' = rootLoc := Except.ok.inj (hroot'.symm.trans hlocate)
    rw [← hrootEq, hserved.resolved] at hresolved'
    obtain rfl : loc = loc' :=
      eq_of_render_eq (Or.inr hfile') (Or.inr hserved.file) (Except.ok.inj hresolved')
    rw [← hbody]
    exact noNul_cString _
  · intro hfree resp hresp hstatus
    obtain ⟨hfail, root, loc, hserved, rfl⟩ := served_of_serveStatic hresp hstatus
    have hnul := hfree hfail root loc hserved
    obtain ⟨rootLoc, hrender, hlocate, hnode, -⟩ := of_realpath hserved.dist
    obtain rfl : root = rootLoc := eq_of_render_eq hnode (Or.inl hserved.dir) hrender
    have hprefix : root <+: loc := by
      rcases isBeneath_iff.1 hserved.beneath with heq | ⟨rest, hrest⟩
      · rw [eq_of_render_eq (Or.inl hserved.dir) (Or.inr hserved.file) heq]
      · exact isPrefix_of_render_append (by rw [hserved.dir]; simp) (by rw [hserved.file]; simp) hrest
    refine ⟨root, loc, hlocate, hprefix, hserved.file, hserved.resolved, ?_, ?_⟩
    · exact cString_of_notMem hnul
    · exact congrArg List.length (cString_of_notMem hnul)

/-- A picture below the root. -/
def pictureTree : FileTree :=
  FileTree.ofEntries
    [([ascii "frontend"], .dir), ([ascii "frontend", ascii "dist"], .dir),
      ([ascii "frontend", ascii "dist", ascii "a.png"], .file)]
    (by decide)

/-- The first bytes of the picture, with a NUL among them. -/
def pictureBytes : List UInt8 := [137, 80, 78, 71, 13, 10, 26, 10, 0, 0, 0, 13]

/-- Of the picture only what stands before the NUL is sent. -/
theorem not_delivers_picture :
    ∃ resp, serveStatic Faults.none pictureTree (fun _ => pictureBytes) (ascii "/a.png") = some resp ∧
      resp.status = 200 ∧ resp.contentLength = 8 ∧
      ¬Delivers pictureTree (fun _ => pictureBytes) (ascii "/a.png") resp := by
  refine ⟨⟨200, "image/png", 8, pictureBytes.take 8⟩, by decide +kernel, rfl, rfl, ?_⟩
  rintro ⟨root, loc, -, -, -, -, hbody, -⟩
  have hcut : pictureBytes.take 8 = pictureBytes := hbody
  exact absurd hcut (by decide)

end EchoAi.Static
