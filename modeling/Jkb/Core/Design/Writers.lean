import Jkb.Core.Design.Tree
import Jkb.Run

/-!
# Jkb.Core.Design.Writers

What writes a tree of designs: a design is made, nested under another, split at its headings, and given a doc target.
Each is one transaction, and a refusal rolls it back. An export reads.
-/

namespace Jkb.Design.Tree

open Jkb.Text Jkb.Ns

/-- A design, as the listing shows it. -/
structure DesignRow where
  uid : Text
  title : Text
  «namespace» : Option Text
  seq : Int
  docTarget : Option Text
  parent : Option Text
  retired : Bool
deriving Repr, DecidableEq

/-- What a split made. -/
structure SplitMade where
  parent : DesignRow
  children : List DesignRow
  moved : Nat
  carried : Nat
deriving Repr, DecidableEq

/-- A design rendered for its doc target. -/
structure Exported where
  text : Text
  repo : Option Text
  uid : Text
  title : Text
  docTarget : Option Text
  version : Version
deriving Repr, DecidableEq

/-- A version as a token: `<seq>.<state vector, base64url>`. -/
def Version.token {Doc Queue : Type} (x : Outside Doc Queue) (v : Version) : Text :=
  showInt v.seq ++ '.' :: x.base64 v.stateVector

/-- The version a token names. -/
def Version.parse {Doc Queue : Type} (x : Outside Doc Queue) (token : Text) : Except Fmt Version :=
  let version := do
    let (seq, sv) ← splitOnce '.' token
    let seq ← parseI64 seq
    let stateVector ← x.unbase64 sv
    if seq < 0 then none else some ⟨seq, stateVector⟩
  match version with
  | some v => .ok v
  | none => .error ["`", shown token, "` is not a design version token — use the one `jkb design cat` printed"]

section Writers

variable {Doc Queue : Type} (x : Outside Doc Queue) (s : Store Doc Queue)

/-- One design, as the listing shows it. -/
def row (uid : Text) : Except Fmt DesignRow := do
  let id ← designId s uid
  return {
    uid
    title := ((s.item? id).bind (·.content)).getD []
    «namespace» := primaryNamespace s id
    seq := newestSeq s id
    docTarget := docTarget s id
    parent := (parentOf s id).map (uidOf s)
    retired := retiredItem s id }

/-- Record that an item is contained by another, at a position among its siblings. -/
def contain (child parent position : Int) : Except Fmt (Store Doc Queue) :=
  (Containment.contain (Substrate.edgeItems s.toStore) (contained s) child parent position).map fun t =>
    { s with containment := t.map (fun c => ⟨c.child, c.parent, c.position⟩) fun _ => rfl }

/-- The position a new child design takes: after every child its parent holds. A retired parent refuses it. -/
def childPosition (parent : Int) : Except Fmt Int := do
  refuseIf (retiredItem s parent = true) ["design ", shown (uidOf s parent), " is retired — restore it first (`jkb ",
    "design restore ", shown (uidOf s parent), "`)"]
  let positions := ((contained s).rows.filter fun c => c.parent = parent).map (·.position)
  return match positions.max? with
    | some m => min (m + 1) (2 ^ 63 - 1)
    | none => 0

/-- Store what an update made of a design's document, and announce it. -/
def appendRow (design : Int) (uid : Text) (doc : Doc) : Except Fmt (Store Doc Queue × Int) := do
  let seq := newestSeq s design + 1
  let queue ← x.publish s.queue uid seq
  return ({ s with docs := s.docs.put ⟨design, seq, doc⟩, queue }, seq)

/-- A uid no other item has, but for luck: a prefix, the title's slug, and a stamp of the time and a random salt. -/
def mint (pfx title stamp : Text) : Text :=
  let slug := (x.tables.slug title).take UID_SLUG_MAX
  if slug.isEmpty then pfx ++ ':' :: stamp else pfx ++ ':' :: slug ++ '-' :: stamp

/-- The live-update topic of a design. -/
def topic (uid : Text) : Text :=
  "design/".toList ++ uid.map fun c => if c.isAlphanum || c = '.' || c = '_' || c = '-' then c else '.'

/-- Write a new design's body, if it has one. -/
def writeBody (id : Int) (uid body : Text) : Except Fmt (Store Doc Queue × Int) :=
  if body.isEmpty then .ok (s, 0)
  else do
    match ← x.insert x.new body with
    | some doc => appendRow x s id uid doc
    | none => return (s, 0)

/-- Create a design titled `title` under `designs/<repo>`, its body `body`. -/
def create (now stamp repo title body : Text) : Except Fmt (Store Doc Queue × DesignRow) := do
  let title := trim title
  refuseIf (title = []) ["a design needs a title"]
  refuseIf (repo = [] ∨ '/' ∈ repo) ["`", shown repo, "` is not a repo name: designs live under `", shown ROOT,
    "/<repo>`"]
  let path ← normalize x.nfc (ROOT ++ '/' :: repo)
  let uid := mint x KIND title stamp
  let (b, id) ← Substrate.upsert s.toStore { uid, kind := KIND, content := some title }
  let (b, home) ← Substrate.ensure x.toTyping b now path
  let b ← Substrate.place x.toTyping b id home .primary 0
  let queue ← x.topicCreate s.queue (topic uid)
  let (s, seq) ← writeBody x { s with toStore := b, queue } id uid body
  return (s, { uid, title, «namespace» := some path, seq, docTarget := none, parent := none, retired := false })

/-! ## nesting -/

/-- Why a design with a doc target of its own may not sit inside another design's tree. -/
def exportedTwice (designUid : Text) : Fmt :=
  ["design ", shown designUid, " would be exported twice — to its own doc target and inside its root ",
    "design's — so a nested design has no doc target of its own; give the root one instead"]

/-- The spans that stopped counting a step, in order. -/
def lostSpans (before after : Staged) : List Text :=
  ((before.rows.filter fun r => r.2.any fun step => ((after.find? r.1).all fun n => step ∉ n.2)).map (·.1)).mergeSort
    fun a b => decide (a ≤ b)

/-- Nest design `uid` under design `under`, after its existing children. -/
def nest (uid under : Text) : Except Fmt (Store Doc Queue × DesignRow) := do
  let child ← designId s uid
  let parent ← designId s under
  refuseIf (child = parent) ["design ", shown uid, " cannot be nested under itself"]
  refuseIf (repoOf s child ≠ repoOf s parent) ["design ", shown uid, " is in repo ",
    shown ((repoOf s child).getD "(none)".toList), " and ", shown under, " is in repo ",
    shown ((repoOf s parent).getD "(none)".toList), ": a design nests only under a design of its own repo"]
  if parentOf s child = some parent then return (s, ← row s uid)
  else
    let moved := (child, uid) :: descendants s child
    moved.forM fun d => refuseIf ((docTarget s d.1).isSome) (exportedTwice d.2)
    let oldRoot := rootOf s child
    let tree := (oldRoot, []) :: descendants s oldRoot
    let before ← stagedSpans x s tree
    let t ← contain s child parent (← childPosition s parent)
    let after ← stagedSpans x t tree
    let lost := lostSpans before after
    refuseIf (lost ≠ []) ["the move would take these spans out of the tree of a plan they are staged into, so that ",
      "plan would stop counting them: ", shown ((", ".toList).intercalate lost)]
    return (t, ← row t uid)

/-- `design.create`: a design, nested under another where one is named. -/
def createUnder (now stamp repo title body : Text) : Option Text → Except Fmt (Store Doc Queue × DesignRow)
  | none => create x s now stamp repo title body
  | some parent => do
      let (s, made) ← create x s now stamp repo title body
      nest x s made.uid parent

/-! ## doc targets -/

/-- A path as a stored repo-relative path. -/
def repoPath (path : Text) (what : String) : Except Fmt Text := do
  refuseIf (path = []) [what, " is empty"]
  refuseIf (path.head? = some '/' ∨ '\\' ∈ path ∨ Char.ofNat 0 ∈ path) [what, " `", shown path,
    "` must be a path relative to the repository root, with `/` separators"]
  refuseIf (∃ c ∈ path.splitOn '/', c = [] ∨ c = ['.'] ∨ c = ['.', '.']) [what, " `", shown path,
    "` must not have an empty, `.` or `..` component"]
  return path

/-- Another design that is now in a repo and names a path as its doc target, if any. -/
def sharer (id : Int) (repo : Option Text) (path : Text) : Option Text :=
  let holders := (s.targets.rows.filter fun t => t.path = path ∧ t.designId ≠ id).filterMap fun t =>
    s.item? t.designId
  (holders.find? fun i => repo.isSome && repoOf s i.id = repo).map (·.uid)

/-- Refuse a retired design: it has left every export. -/
def refuseRetired (id : Int) (uid : Text) : Except Fmt Unit :=
  refuseIf (retiredItem s id = true) ["design ", shown uid, " is retired, so it is not exported — restore it first ",
    "with `jkb design restore ", shown uid, "`"]

/-- Record where a design's export is written. -/
def setDocTarget (uid path : Text) : Except Fmt (Store Doc Queue) := do
  refuseIf ((parentOf s (← designId s uid)).isSome) (exportedTwice uid)
  let path ← repoPath path "a doc target"
  refuseIf (¬ DOCS_DIR <+: path ∨ path = DOCS_DIR) ["a doc target is a file under `", shown DOCS_DIR,
    "` (where `jkb design export --check` looks), not `", shown path, "`"]
  let id ← designId s uid
  refuseRetired s id uid
  match repoOf s id with
  | none =>
      .error ["design ", shown uid, " is in no repo (`", shown ROOT,
        "/<repo>`), so its doc target names no checkout"]
  | some repo =>
      match sharer s id (some repo) path with
      | some other => .error ["design ", shown other, " already exports to `", shown path, "` in repo ", shown repo,
          " — give this one its own file"]
      | none =>
          if docTarget s id = some path then .ok s
          else
            .ok { s with
              targets := s.targets.upsert ⟨id, path⟩ (fun _ => true) (fun r => { r with path }) fun _ => rfl }

end Writers

/-! ## splitting -/

section Split

variable {Doc Queue : Type} (x : Outside Doc Queue)

/-- The open threads of a design that are on its text, with where they are. -/
def openThreads (s : Store Doc Queue) (design : Int) (doc : Doc) : Except Fmt (List (Text × Nat × Nat)) := do
  let threads ← (itemsOf s design THREAD_KIND).mapM fun i => do
    if let some why := x.unreadable (s.metadata i.id) then
      .error ["thread ", shown i.uid, " has unreadable metadata: ", why]
    else
      let (isOpen, range) ← x.thread doc i.uid (s.metadata i.id)
      return if isOpen then (range.filter fun r => r.1 < r.2).map fun r => (i.uid, r.1, r.2) else none
  return threads.filterMap id

/-- Where a span is in a document, for `assign`, which reads no state. -/
def placed (doc : Doc) (i : SpanItem) : SpanView where
  uid := i.uid
  anchored := (x.range doc i.uid).isSome
  start := ((x.range doc i.uid).getD (0, 0)).1
  stop := ((x.range doc i.uid).getD (0, 0)).2
  state := .proposed

/-- What a carried span is moved with: the design it leaves, the version that was read, and the child. -/
structure Carrying (Doc : Type) where
  parentUid : Text
  base : Version
  held : List Text
  child : Int
  childUid : Text
  version : Version
  doc : Doc

/-- Move one span's item into the child, with its approval where that held in the parent. -/
def carrySpan (c : Carrying Doc) (items : List SpanItem) (st : Store Doc Queue × Nat) (moved : Moved × Nat) :
    Except Fmt (Store Doc Queue × Nat) := do
  let (s, carried) := st
  let ((v, start, stop), position) := moved
  match items.find? (·.uid = v.uid) with
  | none => return (s, carried)
  | some span =>
      let s ← contain s span.id c.child position
      if span.uid ∈ c.held then
        let attested ← x.attest c.doc start stop
        match x.carried span.metadata c.childUid
            (some ⟨attested, c.version.token x, c.parentUid, c.base.token x⟩) with
        | none => .error ["span ", shown span.uid, " has metadata that is not an object"]
        | some metadata =>
            let now ← view x s { span with metadata, design := c.child } c.doc
            refuseIf (now.1.state = .proposed) ["span ", shown span.uid, " would read PROPOSED in its new design, so ",
              "the split would lose its approval — nothing was split"]
            return ({ s with metadata := Function.update s.metadata span.id metadata }, carried + 1)
      else
        match x.carried span.metadata c.childUid none with
        | none => .error ["span ", shown span.uid, " has metadata that is not an object"]
        | some metadata => return ({ s with metadata := Function.update s.metadata span.id metadata }, carried)

/-- Anchor spans, if there are any, in the new child design and move their items into it. -/
def carry (s : Store Doc Queue) (parentUid : Text) (base : Version) (child : Int) (childUid : Text) (held : List Text)
    (items : List SpanItem) (spans : List Moved) (carried : Nat) : Except Fmt (Store Doc Queue × Nat) :=
  if spans.isEmpty then .ok (s, carried)
  else do
    match ← x.anchor (load x s child).1 (spans.map fun m => (m.1.uid, m.2.1, m.2.2)) with
    | none => .error ["anchoring the moved spans wrote nothing"]
    | some doc =>
        let (s, seq) ← appendRow x s child childUid doc
        let c : Carrying Doc := ⟨parentUid, base, held, child, childUid, ⟨seq, x.stateVector doc⟩, doc⟩
        let (s, carried) ← spans.zipIdx.foldlM (carrySpan x c items) (s, carried)
        let _ ← finish x s child doc {}
        return (s, carried)

/-- What the sections of a split share. -/
structure Splitting where
  now : Text
  stamp : Nat → Text
  uid : Text
  id : Int
  base : Version
  repo : Text
  text : Text
  first : Int
  held : List Text
  items : List SpanItem

/-- Move one section into a new child design. -/
def splitSection (p : Splitting) (st : Store Doc Queue × List DesignRow × Nat) (sec : (Section × List Moved) × Nat) :
    Except Fmt (Store Doc Queue × List DesignRow × Nat) := do
  let (s, children, carried) := st
  let (((t, spans), i)) := sec
  let body ← childBody (sectionText p.text t) spans
  let (s, made) ← create x s p.now (p.stamp i) p.repo t.title body
  let child ← designId s made.uid
  let s ← contain s child p.id (p.first + i)
  let (s, carried) ← carry x s p.uid p.base child made.uid p.held p.items spans carried
  return (s, children ++ [← row s made.uid], carried)

/-- Split design `uid` into child designs, one per heading of `level`, against the version the caller read. -/
def split (s : Store Doc Queue) (now : Text) (stamp : Nat → Text) (uid base : Text) (level : Nat) :
    Except Fmt (Store Doc Queue × SplitMade) := do
  refuseIf (¬ (1 ≤ level ∧ level ≤ 6)) ["--level ", level, ": a heading level is 1 to 6"]
  let id ← designId s uid
  let base ← Version.parse x base
  let (doc, version) := load x s id
  refuseIf (base ≠ version) ["design ", shown uid, " changed after the version you read (", shown (base.token x),
    ") — re-read with `jkb design cat` and split the version you read"]
  match repoOf s id with
  | none => .error ["design ", shown uid, " is not under designs/<repo>"]
  | some repo =>
      let text := x.text doc
      let sections ← sectionsOf text level uid
      refuseIf (contiguous sections = false ∨ sections.getLast?.map (·.stop) ≠ some text.length) ["design ", shown uid,
        " has text after a level-", level, " section (a higher-level heading), which its export would move after the ",
        "split-out sections — split at a level whose sections run to the end of the design"]
      refuseIf (childrenOf s id ≠ []) ["design ", shown uid, " already has child designs, whose text its export ",
        "places after its own — a split would put the new sections after them; split a design before nesting under it"]
      let before ← beforeWrite x s id doc
      let items ← spanItems x s id
      let (bounds, moving) ← assign text sections (items.map (placed x doc))
      (← openThreads x s id doc).forM fun t =>
        refuseIf (∃ b ∈ bounds, t.2.1 < b.2 ∧ b.1 < t.2.2) ["open thread ", shown t.1,
          " is on text the split would move, and threads are not carried — resolve it first"]
      match ← x.remove doc bounds (moving.flatten.map (·.1.uid)) with
      | none => .error ["the split removed nothing"]
      | some rest =>
          let (s, _) ← appendRow x s id uid rest
          let first ← childPosition s id
          let p : Splitting := ⟨now, stamp, uid, id, base, repo, text, first, before.held, items⟩
          let (s, children, carried) ← (sections.zip moving).zipIdx.foldlM (splitSection x p) (s, [], 0)
          let _ ← finish x s id rest before
          return (s, ⟨← row s uid, children, moving.flatten.length, carried⟩)

end Split

/-! ## exports -/

section Exports

variable {Doc Queue : Type} (x : Outside Doc Queue) (s : Store Doc Queue)

/-- The design's text and spans now. -/
def read (uid : Text) : Except Fmt DesignText := do
  let id ← designId s uid
  let doc := (load x s id).1
  let views ← (← spanItems x s id).mapM fun i => return (← view x s i doc).1
  return { text := x.text doc, spans := views }

/-- A design's approved text followed by that of each nested design that is not retired, in order. -/
def treeText (id : Int) (design : DesignText) : Except Fmt Text :=
  (descendants s id).foldlM (fun body child => do
    if retiredItem s child.1 = true then return body
    else
      let text := approvedText (← read x s child.2)
      if trim text = [] then return body
      else
        let body := trimEnd body
        return (if body.isEmpty then [] else body ++ ['\n', '\n']) ++ text) (approvedText design)

/-- The header line of a design exported at a version with a body below it. -/
def header (uid : Text) (version : Version) (body : Text) : Text :=
  "<!-- generated from jkb design ".toList ++ uid ++ ", edit there (version ".toList ++ version.token x ++
    ", blake3 ".toList ++ x.bodyHash body ++ ") -->".toList

/-- A body, with its last line ended, below its header. -/
def renderBody (uid : Text) (version : Version) (body : Text) : Text :=
  let body := if !body.isEmpty && body.getLast? ≠ some '\n' then body ++ ['\n'] else body
  header x uid version body ++ '\n' :: body

/-- A design rendered for its doc target. -/
def «export» (uid : Text) : Except Fmt Exported := do
  let design ← read x s uid
  let id ← designId s uid
  refuseRetired s id uid
  let repo := repoOf s id
  match (docTarget s id).bind fun path => (sharer s id repo path).map fun other => (path, other) with
  | some (path, other) => .error ["designs ", shown uid, " and ", shown other, " of repo ",
      shown (repo.getD "(none)".toList), " both export to `", shown path,
      "` — point one elsewhere with `jkb design export <design> --to docs/<file>`"]
  | none =>
      let version := (load x s id).2
      return {
        text := renderBody x uid version (← treeText x s id design)
        repo
        uid
        title := ((s.item? id).bind (·.content)).getD []
        docTarget := docTarget s id
        version }

/-- The uids of the designs that are not retired, or of those of one repo, in order. -/
def list (repo : Option Text) : List Text :=
  ((s.items.rows.filter fun i =>
    i.kind = KIND ∧ i.resolution ≠ some .abandoned ∧ ∀ r ∈ repo, ∃ n ∈ primaryNamespace s i.id,
      Ns.Within (ROOT ++ '/' :: r) n).map (·.uid)).mergeSort fun a b => decide (a ≤ b)

/-- Every design that has a doc target, rendered for it. -/
def exports (repo : Option Text) : Except Fmt (List Exported) :=
  (list s repo).filterMapM fun uid => do
    if (docTarget s (← designId s uid)).isSome then return some (← «export» x s uid) else return none

end Exports

/-! ## runs -/

/-- One call, with what it takes from the clock and the random numbers. -/
inductive Op where
  | create (now stamp repo title body : Text) (under : Option Text)
  | nest (uid under : Text)
  | split (now : Text) (stamp : Nat → Text) (uid base : Text) (level : Nat)
  | setDocTarget (uid path : Text)
  | export (uid repo : Option Text)

section Runs

variable {Doc Queue : Type} (x : Outside Doc Queue)

/-- Carry out a call, or refuse it. -/
def Op.run (s : Store Doc Queue) : Op → Except Fmt (Store Doc Queue)
  | .create now stamp repo title body under => (createUnder x s now stamp repo title body under).map (·.1)
  | .nest uid under => (Tree.nest x s uid under).map (·.1)
  | .split now stamp uid base level => (Tree.split x s now stamp uid base level).map (·.1)
  | .setDocTarget uid path => Tree.setDocTarget s uid path
  | .export (some uid) _ => (Tree.export x s uid).map fun _ => s
  | .export none repo => (exports x s repo).map fun _ => s

/-- The store after a call: what it leaves, or the store it was given when it is refused. -/
def next (s : Store Doc Queue) (o : Op) : Store Doc Queue := Tx.commit (o.run x s) s

end Runs

end Jkb.Design.Tree
