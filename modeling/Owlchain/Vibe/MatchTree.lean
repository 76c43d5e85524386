import Owlchain.Vibe.Disambiguate

/-! The match tree of the URL router. `rebuildGraph` copies the part of the resolved graph
that can be reached from its start into an array of nodes, renumbered in the order of a
depth-first search. The tags of the nodes go into one array, of which every node has a
slice, and each terminal has a map from nodes to its placeholders. -/

namespace Owlchain.Vibe

open Owlchain.Library Loop

/-- `MatchTree.Node`; `uint.max` is `none`. -/
structure TreeNode where
  terminalsStart : ℕ
  terminalsEnd : ℕ
  edges : UInt8 → Option ℕ

/-- `Node.init`. -/
def TreeNode.init : TreeNode := ⟨0, 0, fun _ => none⟩

/-- `MatchTree.TerminalTag`; `size_t.max` is `none`. -/
structure TreeTag where
  index : ℕ
  var : Option ℕ
  deriving DecidableEq

structure Terminal (τ : Type) where
  pattern : Bytes
  data : τ
  varNames : List Bytes
  varMap : ℕ → Option ℕ

structure MatchTree (τ : Type) where
  nodes : List TreeNode
  terminalTags : List TreeTag
  terminals : List (Terminal τ)
  upToDate : Bool

variable {τ σ : Type}

def MatchTree.empty : MatchTree τ := ⟨[], [], [], false⟩

def MatchTree.addTerminal (m : MatchTree τ) (pattern : Bytes) (data : τ) : MatchTree τ :=
  { m with terminals := m.terminals ++ [⟨pattern, data, [], fun _ => none⟩], upToDate := false }

/-! ### Building the tree -/

/-- The locals of `rebuildGraph` that `process` changes. -/
structure Purge (τ : Type) where
  nodemap : ℕ → Option ℕ
  nodes : List TreeNode
  tags : List TreeTag
  terminals : List (Terminal τ)

/-- The index of a placeholder; `countUntil` gives -1, which is `size_t.max`, if there is none. -/
def treeVar (varNames : List Bytes) (var : Bytes) : Option ℕ :=
  if var = [] then none else varNames.findIdx? (· = var)

/-- The loop body of `process` over the tags of a node. -/
def putTag (terminalsStart nmidx : ℕ) (s : Purge τ) (t : TerminalTag) : Result (Purge τ) :=
  match s.terminals[t.index]? with
  | none => .error .range
  | some term =>
    let var := treeVar term.varNames t.var
    if ⟨t.index, var⟩ ∈ s.tags.drop terminalsStart then .error .assert
    else .ok { s with
      tags := s.tags ++ [⟨t.index, var⟩]
      terminals := match var with
        | none => s.terminals
        | some v => s.terminals.set t.index
            { term with varMap := Function.update term.varMap nmidx (some v) } }

/-- `nn.edges[ch] = process(to)`. -/
def copyEdge (call : ℕ → Purge τ → Result (Purge τ × ℕ)) (ch : UInt8)
    (acc : Purge τ × (UInt8 → Option ℕ)) (dest : ℕ) : Result (Purge τ × (UInt8 → Option ℕ)) := do
  let (s, m) ← call dest acc.1
  return (s, Function.update acc.2 ch (some m))

/-- The targets for one character. -/
def copyEdges (call : ℕ → Purge τ → Result (Purge τ × ℕ)) (node : Node)
    (acc : Purge τ × (UInt8 → Option ℕ)) (ch : UInt8) : Result (Purge τ × (UInt8 → Option ℕ)) :=
  (node.edges ch).foldlM (copyEdge call ch) acc

/-- `process`, with a bound for the depth of the recursion. -/
def process (g : Graph) : ℕ → ℕ → Purge τ → Result (Purge τ × ℕ)
  | 0, _, _ => .error .unfinished
  | depth + 1, n, s =>
    match s.nodemap n with
    | some m => .ok (s, m)
    | none => do
      let nmidx := s.nodes.length
      let terminalsStart := s.tags.length
      let s := { s with
        nodemap := Function.update s.nodemap n (some nmidx), nodes := s.nodes ++ [.init] }
      let s ← (g.node n).terminals.foldlM (putTag terminalsStart nmidx) s
      let terminalsEnd := s.tags.length
      let (s, edges) ← allBytes.foldlM (copyEdges (process g depth) (g.node n)) (s, fun _ => none)
      return ({ s with nodes := s.nodes.set nmidx ⟨terminalsStart, terminalsEnd, edges⟩ }, nmidx)

/-- The patterns are inserted one after the other, each under its index. -/
def insertAll (terminals : List (Terminal τ)) : Result (Graph × List (Terminal τ)) :=
  terminals.foldlM
    (fun (acc : Graph × List (Terminal τ)) t => do
      let (g, varNames) ← acc.1.insert t.pattern acc.2.length
      return (g, acc.2 ++ [{ t with varNames := varNames }]))
    (.empty, [])

/-- `rebuildGraph`, where `disambiguate` is cut off after a number of passes. -/
def MatchTree.rebuildGraph (m : MatchTree τ) (passes : ℕ) : Result (MatchTree τ) :=
  if m.upToDate then .ok m
  else if m.terminals = [] then .ok { m with nodes := [], terminalTags := [], upToDate := true }
  else do
    let (g, terminals) ← insertAll m.terminals
    match disambiguate g passes with
    | none => .error .unfinished
    | some g =>
      match (g.node 0).edges caret with
      | [n] => do
        let (s, _) ← process g (g.length + 1) n ⟨fun _ => none, [], [], terminals⟩
        return ⟨s.nodes, s.tags, s.terminals, true⟩
      | _ => .error .assert

/-! ### Matching -/

/-- The slice `l[a .. b-1]`; the subtraction wraps around at zero. -/
def sliceBefore {α : Type} (l : List α) (a b : ℕ) : Result (List α) :=
  if b = 0 then .error .range else slice l a (b - 1)

/-- Follow a text through the tree. -/
def MatchTree.follow (m : MatchTree τ) : TreeNode → Bytes → Result (Option TreeNode)
  | n, [] => .ok (some n)
  | n, ch :: text =>
    match n.edges ch with
    | none => .ok none
    | some nidx => do
      let n ← at? m.nodes nidx
      m.follow n text

def MatchTree.matchTerminals (m : MatchTree τ) (text : Bytes) : Result (Option TreeNode) :=
  if m.nodes.length = 0 then .ok none
  else do
    let n ← at? m.nodes 0
    match ← m.follow n text with
    | none => .ok none
    | some n =>
      match n.edges terminalChar with
      | none => .ok none
      | some nidx => return some (← at? m.nodes nidx)

/-- The locals of `matchVars`. -/
structure Scan where
  nidx : ℕ
  activevar : Option ℕ
  activevarstart : ℕ
  dst : List Bytes

/-- Detect the end of a placeholder: its text ends before the character that led here. -/
def endVar (text : Bytes) (var : Option ℕ) (s : Scan) (i : ℕ) : Result Scan :=
  match s.activevar with
  | none => .ok s
  | some a =>
    if var = some a then .ok s
    else do
      let dst ← assign s.dst a (← sliceBefore text s.activevarstart i)
      return { s with dst := dst, activevar := none }

/-- Detect the beginning of a placeholder. -/
def beginVar (var : Option ℕ) (s : Scan) (i : ℕ) : Scan :=
  match s.activevar with
  | some _ => s
  | none =>
    match var with
    | none => s
    | some v => { s with activevar := some v, activevarstart := i }

/-- The loop of `matchVars`. -/
def MatchTree.scan (m : MatchTree τ) (term : Terminal τ) (text : Bytes) :
    Scan → ℕ → Bytes → Result Scan
  | s, _, [] => .ok s
  | s, i, ch :: rest => do
    let var := term.varMap s.nidx
    let s ← endVar text var s i
    let s := beginVar var s i
    let n ← at? m.nodes s.nidx
    match n.edges ch with
    | none => .error .assert
    | some nidx => m.scan term text { s with nidx := nidx } (i + 1) rest

/-- The text of the active placeholder is cut off at the end of the text, or before its last
character if the placeholder was left with it. -/
def finishScan (text : Bytes) (var : Option ℕ) (s : Scan) : Result (List Bytes) :=
  match s.activevar with
  | none => .ok s.dst
  | some a => do
    let value ← if var = some a then slice text s.activevarstart text.length
      else sliceBefore text s.activevarstart text.length
    assign s.dst a value

def MatchTree.matchVars (m : MatchTree τ) (term : Terminal τ) (text : Bytes) :
    Result (List Bytes) := do
  let s ← m.scan term text ⟨0, none, 0, List.replicate term.varNames.length []⟩ 0 text
  finishScan text (term.varMap s.nidx) s

/-- `maxRouteParameters`. -/
def maxRouteParameters : ℕ := 64

/-- The loop of `doMatch` over the tags of the end node. The delegate has a state of its own. -/
def MatchTree.offerTags (m : MatchTree τ) (text : Bytes) (del : ℕ → List Bytes → σ → Bool × σ) :
    List TreeTag → σ → Result (Bool × σ)
  | [], s => .ok (false, s)
  | t :: ts, s => do
    let term ← at? m.terminals t.index
    if maxRouteParameters < term.varNames.length then Except.error .range
    else
      let vars ← m.matchVars term text
      if vars.any (·.isEmpty) then m.offerTags text del ts s
      else match del t.index vars s with
        | (true, s) => return (true, s)
        | (false, s) => m.offerTags text del ts s

def MatchTree.doMatch (m : MatchTree τ) (text : Bytes)
    (del : ℕ → List Bytes → σ → Bool × σ) (s : σ) :
    Result (Bool × σ) := do
  match ← m.matchTerminals text with
  | none => return (false, s)
  | some n =>
    let tags ← slice m.terminalTags n.terminalsStart n.terminalsEnd
    m.offerTags text del tags s

/-- Lazily update the match graph. -/
def MatchTree.update (m : MatchTree τ) (passes : ℕ) : Result (MatchTree τ) :=
  if m.upToDate then .ok m else m.rebuildGraph passes

/-- `match`; the delegate can see the terminals of the updated tree. -/
def MatchTree.matchText (m : MatchTree τ) (passes : ℕ) (text : Bytes)
    (del : List (Terminal τ) → ℕ → List Bytes → σ → Bool × σ) (s : σ) :
    Result (MatchTree τ × Bool × σ) := do
  let m ← m.update passes
  let r ← m.doMatch text (del m.terminals) s
  return (m, r)

/-! ### The copy of the graph -/

/-- What a terminal has besides its map of placeholders. -/
def entry (terminals : List (Terminal τ)) (t : ℕ) : Option (Bytes × τ × List Bytes) :=
  terminals[t]?.map fun term => (term.pattern, term.data, term.varNames)

/-- The placeholder of a terminal at a node. -/
def varAt (terminals : List (Terminal τ)) (t i : ℕ) : Option ℕ := terminals[t]?.bind (·.varMap i)

/-- The names of the placeholders of a terminal. -/
def namesOf (terminals : List (Terminal τ)) (t : ℕ) : List Bytes :=
  ((entry terminals t).map (·.2.2)).getD []

/-- A tag of the graph as a tag of the tree. -/
def TerminalTag.toTree (names : ℕ → List Bytes) (t : TerminalTag) : TreeTag :=
  ⟨t.index, treeVar (names t.index) t.var⟩

section PutTag
variable {names : ℕ → List Bytes}

theorem putTag_eq {start : ℕ} (nm : ℕ) {s : Purge τ} {t : TerminalTag}
    (hentry : (entry s.terminals t.index).isSome)
    (hnew : ∀ u ∈ s.tags.drop start, u.index ≠ t.index) :
    ∃ s', putTag start nm s t = .ok s' ∧ s'.nodemap = s.nodemap ∧ s'.nodes = s.nodes ∧
      s'.tags = s.tags ++ [t.toTree (namesOf s.terminals)] ∧
      (∀ j, entry s'.terminals j = entry s.terminals j) ∧
      (∀ j i, j ≠ t.index ∨ i ≠ nm → varAt s'.terminals j i = varAt s.terminals j i) ∧
      (varAt s.terminals t.index nm = none →
        varAt s'.terminals t.index nm = treeVar (namesOf s.terminals t.index) t.var) := by
  obtain ⟨term, hterm⟩ : ∃ term, s.terminals[t.index]? = some term := by
    rw [entry, Option.isSome_map] at hentry
    exact Option.isSome_iff_exists.mp hentry
  have hnames : namesOf s.terminals t.index = term.varNames := by simp [namesOf, entry, hterm]
  obtain ⟨hlt, hget⟩ := List.getElem?_eq_some_iff.mp hterm
  have hmem : (⟨t.index, treeVar term.varNames t.var⟩ : TreeTag) ∉ s.tags.drop start :=
    fun h => hnew _ h rfl
  rw [putTag, hterm]
  dsimp only
  rw [if_neg hmem]
  refine ⟨_, rfl, rfl, rfl, by rw [TerminalTag.toTree, hnames], ?_, ?_, ?_⟩
  · intro j
    cases htree : treeVar term.varNames t.var with
    | none => rfl
    | some v =>
      by_cases hj : t.index = j
      · subst hj
        simp [entry, hlt, hget]
      · simp [entry, hj]
  · intro j i hji
    cases htree : treeVar term.varNames t.var with
    | none => rfl
    | some v =>
      by_cases hj : t.index = j
      · subst hj
        have hi : i ≠ nm := hji.resolve_left (by simp)
        simp [varAt, hlt, hget, hi]
      · simp [varAt, hj]
  · intro hnone
    rw [hnames]
    cases htree : treeVar term.varNames t.var with
    | none => exact hnone
    | some v => simp [varAt, hlt]

/-- The tags of a node, of different patterns. -/
theorem putTags_eq (start nm : ℕ) (tags : List TerminalTag) :
    ∀ {s : Purge τ}, namesOf s.terminals = names →
      (∀ t ∈ tags, (entry s.terminals t.index).isSome) →
      (tags.map (·.index)).Nodup → (∀ u ∈ s.tags.drop start, ∀ t ∈ tags, u.index ≠ t.index) →
      start ≤ s.tags.length → (∀ t ∈ tags, varAt s.terminals t.index nm = none) →
      ∃ s', tags.foldlM (putTag start nm) s = .ok s' ∧ s'.nodemap = s.nodemap ∧ s'.nodes = s.nodes ∧
        s'.tags = s.tags ++ tags.map (·.toTree names) ∧
        (∀ j, entry s'.terminals j = entry s.terminals j) ∧
        (∀ j i, j ∉ tags.map (·.index) ∨ i ≠ nm → varAt s'.terminals j i = varAt s.terminals j i) ∧
        ∀ t ∈ tags, varAt s'.terminals t.index nm = treeVar (names t.index) t.var := by
  induction tags with
  | nil =>
    intro s _ _ _ _ _ _
    exact ⟨s, rfl, rfl, rfl, by simp, fun _ => rfl, fun _ _ _ => rfl, by simp⟩
  | cons t tags ih =>
    intro s hnames hentry hnodup hnew hstart hnone
    obtain ⟨ht, hrest⟩ := List.nodup_cons.mp hnodup
    obtain ⟨s₁, hput, hmap₁, hnodes₁, htags₁, hentry₁, hother₁, hvar₁⟩ := putTag_eq nm
      (hentry t List.mem_cons_self) fun u hu => hnew u hu t List.mem_cons_self
    have hnames₁ : namesOf s₁.terminals = names := by
      rw [← hnames]
      funext j
      rw [namesOf, hentry₁, namesOf]
    have hne : ∀ u ∈ tags, u.index ≠ t.index := fun u hu heq => ht (List.mem_map.mpr ⟨u, hu, heq⟩)
    obtain ⟨s', hfold, hmap, hnodes, htags, hentries, hother, hvar⟩ := ih (s := s₁) hnames₁
      (fun u hu => by rw [hentry₁]; exact hentry u (List.mem_cons_of_mem t hu)) hrest
      (fun u hu v hv => by
        rw [htags₁, List.drop_append_of_le_length hstart] at hu
        rcases List.mem_append.mp hu with hu | hu
        · exact hnew u hu v (List.mem_cons_of_mem t hv)
        · rw [List.mem_singleton.mp hu]
          exact (hne v hv).symm)
      (by rw [htags₁, List.length_append]; omega)
      (fun u hu => by rw [hother₁ _ _ (.inl (hne u hu))]; exact hnone u (List.mem_cons_of_mem t hu))
    refine ⟨s', by rw [List.foldlM_cons, hput, ok_bind, hfold], hmap.trans hmap₁,
      hnodes.trans hnodes₁, ?_, fun j => (hentries j).trans (hentry₁ j), fun j i hji => ?_,
      fun u hu => ?_⟩
    · rw [htags, htags₁, hnames, List.append_assoc]
      rfl
    · rw [List.map_cons, List.mem_cons, not_or] at hji
      rw [hother j i (hji.imp_left (·.2)), hother₁ j i (hji.imp_left (·.1))]
    · rcases List.mem_cons.mp hu with rfl | hu
      · rw [hother _ _ (.inl ht), hvar₁ (hnone u List.mem_cons_self), hnames]
      · exact hvar u hu

end PutTag

/-- A state that grew out of another one: what was there is still there. -/
structure Grows (s s' : Purge τ) : Prop where
  nodemap : ∀ n m, s.nodemap n = some m → s'.nodemap n = some m
  length : s.nodes.length ≤ s'.nodes.length
  nodes : ∀ i < s.nodes.length, s'.nodes[i]? = s.nodes[i]?
  tags : s.tags <+: s'.tags
  entry : ∀ t, entry s'.terminals t = entry s.terminals t
  varAt : ∀ t, ∀ i < s.nodes.length, varAt s'.terminals t i = varAt s.terminals t i

theorem Grows.refl (s : Purge τ) : Grows s s :=
  ⟨fun _ _ h => h, Nat.le_refl _, fun _ _ => rfl, List.prefix_refl _, fun _ => rfl,
    fun _ _ _ => rfl⟩

theorem Grows.trans {s₁ s₂ s₃ : Purge τ} (h : Grows s₁ s₂) (h' : Grows s₂ s₃) : Grows s₁ s₃ where
  nodemap n m hn := h'.nodemap n m (h.nodemap n m hn)
  length := Nat.le_trans h.length h'.length
  nodes i hi := (h'.nodes i (Nat.lt_of_lt_of_le hi h.length)).trans (h.nodes i hi)
  tags := h.tags.trans h'.tags
  entry t := (h'.entry t).trans (h.entry t)
  varAt t i hi := (h'.varAt t i (Nat.lt_of_lt_of_le hi h.length)).trans (h.varAt t i hi)

/-- The node `m` of the tree is a copy of the node `n` of the graph. -/
structure Copy (g : Graph) (names : ℕ → List Bytes) (s : Purge τ) (n m : ℕ) (x : TreeNode) :
    Prop where
  node : s.nodes[m]? = some x
  edges : ∀ c, x.edges c = ((g.node n).edges c).head?.bind s.nodemap
  target : ∀ c, ∀ t ∈ (g.node n).edges c, (s.nodemap t).isSome
  bounds : x.terminalsStart ≤ x.terminalsEnd ∧ x.terminalsEnd ≤ s.tags.length
  tags : (s.tags.take x.terminalsEnd).drop x.terminalsStart =
    (g.node n).terminals.map (·.toTree names)
  varAt : ∀ t ∈ (g.node n).terminals, varAt s.terminals t.index m = treeVar (names t.index) t.var

theorem Copy.grows {g : Graph} {names : ℕ → List Bytes} {s s' : Purge τ} {n m : ℕ} {x : TreeNode}
    (h : Copy g names s n m x) (hs : Grows s s') : Copy g names s' n m x := by
  have hm : m < s.nodes.length := (List.getElem?_eq_some_iff.mp h.node).1
  obtain ⟨more, hmore⟩ := hs.tags
  constructor
  case node => rw [hs.nodes m hm, h.node]
  case edges =>
    intro c
    rw [h.edges c]
    cases hc : (g.node n).edges c with
    | nil => rfl
    | cons t ts =>
      obtain ⟨k, hk⟩ := Option.isSome_iff_exists.mp (h.target c t (by simp [hc]))
      simp [hk, hs.nodemap t k hk]
  case target =>
    intro c t ht
    obtain ⟨k, hk⟩ := Option.isSome_iff_exists.mp (h.target c t ht)
    simp [hs.nodemap t k hk]
  case bounds => exact ⟨h.bounds.1, Nat.le_trans h.bounds.2 hs.tags.length_le⟩
  case tags => rw [← hmore, List.take_append_of_le_length h.bounds.2, h.tags]
  case varAt => exact fun t ht => (hs.varAt t.index m hm).trans (h.varAt t ht)

/-- A copy stays one if another node is written. -/
theorem Copy.set {g : Graph} {names : ℕ → List Bytes} {s : Purge τ} {n m : ℕ} {x : TreeNode}
    (h : Copy g names s n m x) {i : ℕ} (hi : i ≠ m) (y : TreeNode) :
    Copy g names { s with nodes := s.nodes.set i y } n m x :=
  ⟨(List.getElem?_set_ne hi).trans h.node, h.edges, h.target, h.bounds, h.tags, h.varAt⟩

/-- The graphs that are copied: `live` nodes have at most one target for a character, and
tags of different patterns. -/
structure Copyable (g : Graph) (live : ℕ → Prop) (entries : ℕ → Prop) : Prop where
  lt : ∀ n, live n → n < g.length
  narrow : ∀ n, live n → ∀ c, ((g.node n).edges c).length ≤ 1
  target : ∀ n, live n → ∀ c, ∀ t ∈ (g.node n).edges c, live t
  tags : ∀ n, live n → ((g.node n).terminals.map (·.index)).Nodup
  entries : ∀ n, live n → ∀ t ∈ (g.node n).terminals, entries t.index

/-- A state between two calls of `process`. -/
structure Ready (names : ℕ → List Bytes) (entries : ℕ → Prop) (s : Purge τ) : Prop where
  names : namesOf s.terminals = names
  entries : ∀ t, entries t → (entry s.terminals t).isSome
  lt : ∀ n m, s.nodemap n = some m → m < s.nodes.length
  fresh : ∀ t i, s.nodes.length ≤ i → varAt s.terminals t i = none

/-- The nodes that were added between two states are copies of live nodes. -/
structure Copied (g : Graph) (live : ℕ → Prop) (names : ℕ → List Bytes) (s s' : Purge τ) :
    Prop extends Grows s s' where
  copy : ∀ n m, s.nodemap n = none → s'.nodemap n = some m → live n ∧ s.nodes.length ≤ m ∧
    ∃ x, Copy g names s' n m x

section Process
variable {g : Graph} {live : ℕ → Prop} {entries : ℕ → Prop} {names : ℕ → List Bytes}

theorem Copied.refl (s : Purge τ) : Copied g live names s s :=
  ⟨Grows.refl s, fun n m h h' => by rw [h] at h'; cases h'⟩

theorem Copied.trans {s₁ s₂ s₃ : Purge τ} (h : Copied g live names s₁ s₂)
    (h' : Copied g live names s₂ s₃) :
    Copied g live names s₁ s₃ := by
  refine ⟨h.toGrows.trans h'.toGrows, fun n m hnone hsome => ?_⟩
  cases hn : s₂.nodemap n with
  | none =>
    obtain ⟨hlive, hle, hcopy⟩ := h'.copy n m hn hsome
    exact ⟨hlive, Nat.le_trans h.length hle, hcopy⟩
  | some k =>
    obtain rfl : k = m := by rw [h'.nodemap n k hn, Option.some.injEq] at hsome; exact hsome
    obtain ⟨hlive, hle, x, hx⟩ := h.copy n k hnone hn
    exact ⟨hlive, hle, x, hx.grows h'.toGrows⟩

/-- The number of nodes that have not been copied. -/
def uncopied (g : Graph) (s : Purge τ) : ℕ :=
  (List.range g.length).countP fun n => (s.nodemap n).isNone

theorem countP_uncopied_le {s s' : Purge τ} (h : Grows s s') (l : List ℕ) :
    l.countP (fun n => (s'.nodemap n).isNone) ≤ l.countP fun n => (s.nodemap n).isNone := by
  refine List.countP_mono_left fun n _ hn => ?_
  cases hs : s.nodemap n with
  | none => rfl
  | some m => rw [h.nodemap n m hs] at hn; cases hn

theorem uncopied_le {s s' : Purge τ} (h : Grows s s') : uncopied g s' ≤ uncopied g s :=
  countP_uncopied_le h _

theorem uncopied_lt {s s' : Purge τ} (h : Grows s s') {n m : ℕ} (hlt : n < g.length)
    (hn : s.nodemap n = none) (hn' : s'.nodemap n = some m) : uncopied g s' < uncopied g s := by
  obtain ⟨l₁, l₂, hsplit⟩ := List.append_of_mem (List.mem_range.mpr hlt)
  have h₁ := countP_uncopied_le h l₁
  have h₂ := countP_uncopied_le h l₂
  simp only [uncopied, hsplit, List.countP_append, List.countP_cons, hn, hn']
  simp only [Option.isNone_none, Option.isNone_some, if_true, if_false, Bool.false_eq_true]
  omega

/-- What a call for a target does. -/
def Calls (g : Graph) (live entries : ℕ → Prop) (names : ℕ → List Bytes) (bound : ℕ)
    (call : ℕ → Purge τ → Result (Purge τ × ℕ)) : Prop :=
  ∀ n s, Ready names entries s → live n → uncopied g s < bound →
    ∃ s' m, call n s = .ok (s', m) ∧ Ready names entries s' ∧ Copied g live names s s' ∧
      s'.nodemap n = some m ∧
      (s.nodemap n = none → m = s.nodes.length)

theorem copyEdges_eq {bound : ℕ} {call : ℕ → Purge τ → Result (Purge τ × ℕ)}
    (hcall : Calls g live entries names bound call) {n : ℕ}
    (hnarrow : ∀ c, ((g.node n).edges c).length ≤ 1)
    (htarget : ∀ c, ∀ t ∈ (g.node n).edges c, live t) (chars : List UInt8) :
    ∀ {s : Purge τ} (edges : UInt8 → Option ℕ), chars.Nodup → Ready names entries s →
      uncopied g s < bound → (∀ c ∈ chars, edges c = none) →
      ∃ s' edges', chars.foldlM (copyEdges call (g.node n)) (s, edges) = .ok (s', edges') ∧
        Ready names entries s' ∧ Copied g live names s s' ∧
        (∀ c ∉ chars, edges' c = edges c) ∧
        ∀ c ∈ chars, edges' c = ((g.node n).edges c).head?.bind s'.nodemap ∧
          ∀ t ∈ (g.node n).edges c, (s'.nodemap t).isSome := by
  induction chars with
  | nil =>
    intro s edges _ hready _ _
    exact ⟨s, edges, rfl, hready, Copied.refl s, fun _ _ => rfl, by simp⟩
  | cons ch chars ih =>
    intro s edges hnodup hready hbound hnone
    obtain ⟨hch, hrest⟩ := List.nodup_cons.mp hnodup
    -- a character has no target or one
    cases htargets : (g.node n).edges ch with
    | nil =>
      obtain ⟨s', edges', hfold, hready', hcopied, hother, hedges⟩ :=
        ih edges hrest hready hbound fun c hc => hnone c (List.mem_cons_of_mem ch hc)
      refine ⟨s', edges', ?_, hready', hcopied,
        fun c hc => hother c fun h => hc (List.mem_cons_of_mem ch h), ?_⟩
      · rw [List.foldlM_cons, copyEdges, htargets, List.foldlM_nil]
        exact hfold
      · intro c hc
        rcases List.mem_cons.mp hc with rfl | hc
        · rw [hother c hch, hnone c List.mem_cons_self, htargets]
          exact ⟨rfl, by simp⟩
        · exact hedges c hc
    | cons t ts =>
      obtain rfl : ts = [] := by
        have := hnarrow ch
        rw [htargets, List.length_cons] at this
        exact List.length_eq_zero_iff.mp (by omega)
      obtain ⟨s₁, m, hcall₁, hready₁, hcopied₁, hm, -⟩ :=
        hcall t s hready (htarget ch t (by simp [htargets])) hbound
      have hbound₁ : uncopied g s₁ < bound :=
        Nat.lt_of_le_of_lt (uncopied_le hcopied₁.toGrows) hbound
      obtain ⟨s', edges', hfold, hready', hcopied, hother, hedges⟩ :=
        ih (Function.update edges ch (some m)) hrest hready₁ hbound₁ fun c hc => by
          have hne : c ≠ ch := fun heq => hch (heq ▸ hc)
          rw [Function.update_of_ne hne]
          exact hnone c (List.mem_cons_of_mem ch hc)
      refine ⟨s', edges', ?_, hready', hcopied₁.trans hcopied, fun c hc => ?_, fun c hc => ?_⟩
      · rw [List.foldlM_cons, copyEdges, htargets, List.foldlM_cons, copyEdge, hcall₁]
        exact hfold
      · rw [hother c fun h => hc (List.mem_cons_of_mem ch h), Function.update_of_ne]
        exact fun heq => hc (heq ▸ List.mem_cons_self)
      · rcases List.mem_cons.mp hc with rfl | hc
        · rw [hother c hch, Function.update_self, htargets]
          simp [hcopied.nodemap t m hm]
        · exact hedges c hc

/-- The state in which the edges of a new node are copied: the node is mapped and has its
tags, but its place in the array is still empty. -/
theorem process_enter (hg : Copyable g live entries) {s : Purge τ} (hs : Ready names entries s)
    {n : ℕ} (hn : live n) (hnone : s.nodemap n = none) :
    ∃ s₁, (g.node n).terminals.foldlM (putTag s.tags.length s.nodes.length)
        { s with
          nodemap := Function.update s.nodemap n (some s.nodes.length),
          nodes := s.nodes ++ [.init] } = .ok s₁ ∧
      Ready names entries s₁ ∧ Grows s s₁ ∧
      s₁.nodemap = Function.update s.nodemap n (some s.nodes.length) ∧
      s₁.nodes.length = s.nodes.length + 1 ∧
      s₁.tags = s.tags ++ (g.node n).terminals.map (·.toTree names) ∧
      ∀ t ∈ (g.node n).terminals,
        varAt s₁.terminals t.index s.nodes.length = treeVar (names t.index) t.var := by
  obtain ⟨s₁, hput, hmap, hnodes, htags, hentry, hother, hvar⟩ :=
    putTags_eq s.tags.length s.nodes.length (g.node n).terminals
      (s := { s with
        nodemap := Function.update s.nodemap n (some s.nodes.length), nodes := s.nodes ++ [.init] })
      hs.names (fun t ht => hs.entries t.index (hg.entries n hn t ht)) (hg.tags n hn) (by simp)
      (Nat.le_refl _) (fun t _ => hs.fresh t.index _ (Nat.le_refl _))
  dsimp only at hmap hnodes htags hentry hother
  have hlength : s₁.nodes.length = s.nodes.length + 1 := by simp [hnodes]
  refine ⟨s₁, hput, ⟨?_, fun t ht => ?_, fun k m hk => ?_, fun t i hi => ?_⟩,
    ⟨fun k m hk => ?_, by omega, fun i hi => ?_, ⟨_, htags.symm⟩, hentry, fun t i hi => ?_⟩, hmap,
      hlength, htags, hvar⟩
  · rw [← hs.names]
    funext t
    rw [namesOf, hentry, namesOf]
  · rw [hentry]
    exact hs.entries t ht
  · rw [hmap] at hk
    by_cases hkn : k = n
    · rw [hkn, Function.update_self, Option.some.injEq] at hk
      omega
    · rw [Function.update_of_ne hkn] at hk
      have := hs.lt k m hk
      omega
  · rw [hother t i (.inr (by omega))]
    exact hs.fresh t i (by omega)
  · rw [hmap, Function.update_of_ne, hk]
    rintro rfl
    rw [hnone] at hk
    cases hk
  · rw [hnodes, List.getElem?_append_left hi]
  · rw [hother t i (.inr (by omega))]

/-- `process` copies a node and all nodes that can be reached from it, if the bound for its
depth is greater than the number of nodes that have no copy yet. -/
theorem process_eq (hg : Copyable g live entries) (depth : ℕ) :
    Calls g live entries names depth (process (τ := τ) g depth) := by
  induction depth with
  | zero => exact fun n s _ _ hbound => absurd hbound (Nat.not_lt_zero _)
  | succ depth ih =>
    intro n s hs hn hbound
    cases hnone : s.nodemap n with
    | some m =>
      refine ⟨s, m, ?_, hs, Copied.refl s, hnone, fun h => nomatch h⟩
      rw [process, hnone]
    | none =>
      obtain ⟨s₁, hput, hready₁, hgrows₁, hmap₁, hlength₁, htags₁, hvar₁⟩ :=
        process_enter hg hs hn hnone
      have hn₁ : s₁.nodemap n = some s.nodes.length := by rw [hmap₁, Function.update_self]
      have hbound₁ : uncopied g s₁ < depth := by
        have := uncopied_lt hgrows₁ (hg.lt n hn) hnone hn₁
        omega
      obtain ⟨s₂, edges, hfold, hready₂, hcopied₂, -, hedges⟩ :=
        copyEdges_eq ih (hg.narrow n hn) (hg.target n hn) allBytes
        (fun _ => none) nodup_allBytes hready₁ hbound₁ fun _ _ => rfl
      have hlt : s.nodes.length < s₂.nodes.length := Nat.lt_of_lt_of_le (by omega) hcopied₂.length
      refine ⟨{ s₂ with
          nodes := s₂.nodes.set s.nodes.length ⟨s.tags.length, s₁.tags.length, edges⟩ },
        s.nodes.length, ?_, ?_, ?_, hcopied₂.nodemap n _ hn₁, fun _ => rfl⟩
      · rw [process, hnone]
        simp only [hput, ok_bind, hfold]
        rfl
      · exact ⟨hready₂.names, hready₂.entries, by simpa using hready₂.lt,
          by simpa using hready₂.fresh⟩
      · have hgrows := hgrows₁.trans hcopied₂.toGrows
        refine ⟨⟨hgrows.nodemap, by simpa using hgrows.length, fun i hi => ?_, hgrows.tags,
          hgrows.entry, hgrows.varAt⟩, fun k m hk hm => ?_⟩
        · exact (List.getElem?_set_ne (by omega)).trans (hgrows.nodes i hi)
        by_cases hkn : k = n
        · -- the node itself
          subst hkn
          obtain rfl : s.nodes.length = m := by
            have := hcopied₂.nodemap k _ hn₁
            rw [hm, Option.some.injEq] at this
            exact this.symm
          obtain ⟨more, hmore⟩ := hcopied₂.tags
          refine ⟨hn, Nat.le_refl _, ⟨s.tags.length, s₁.tags.length, edges⟩,
            List.getElem?_set_self hlt, fun c => (hedges c (mem_allBytes c)).1,
            fun c => (hedges c (mem_allBytes c)).2, ⟨?_, hcopied₂.tags.length_le⟩, ?_,
            fun t ht => ?_⟩
          · exact hgrows₁.tags.length_le
          · dsimp only
            rw [← hmore, List.take_left, htags₁, List.drop_left]
          · rw [← hvar₁ t ht]
            exact hcopied₂.varAt t.index _ (by omega)
        · -- a node below it
          have hk₁ : s₁.nodemap k = none := by rw [hmap₁, Function.update_of_ne hkn, hk]
          obtain ⟨hlive, hle, x, hx⟩ := hcopied₂.copy k m hk₁ hm
          exact ⟨hlive, by omega, x, hx.set (by omega) _⟩

end Process

/-! ### The tree of some patterns -/

/-- The patterns of a router, registered one after the other. -/
def register (routes : List (Pattern × τ)) : MatchTree τ :=
  routes.foldl (fun m route => m.addTerminal route.1.render route.2) .empty

/-- A route as a terminal, once its pattern was inserted. -/
def inserted (route : Pattern × τ) : Terminal τ :=
  ⟨route.1.render, route.2, route.1.names, fun _ => none⟩

theorem register_concat (routes : List (Pattern × τ)) (route : Pattern × τ) :
    register (routes ++ [route]) = (register routes).addTerminal route.1.render route.2 := by
  rw [register, List.foldl_append]
  rfl

theorem terminals_register (routes : List (Pattern × τ)) :
    (register routes).terminals = routes.map fun route =>
      ⟨route.1.render, route.2, [], fun _ => none⟩ := by
  induction routes using List.reverseRecOn with
  | nil => rfl
  | append_singleton routes route ih =>
    rw [register_concat, MatchTree.addTerminal, ih, List.map_append]; rfl

theorem upToDate_register (routes : List (Pattern × τ)) : (register routes).upToDate = false := by
  induction routes using List.reverseRecOn with
  | nil => rfl
  | append_singleton routes route ih => rw [register_concat, MatchTree.addTerminal]

theorem chains_empty : Chains (addNode .empty).1 [] [] where
  zero := by simp [addNode, Graph.empty, Node.blank]
  count := rfl
  pos := by simp
  chain := by simp
  cover j h0 hj := by simp [addNode, Graph.empty] at hj; omega

/-- The first pattern brings the zero node with it. -/
theorem insert_empty (pattern : Bytes) (terminal : ℕ) :
    Graph.empty.insert pattern terminal = (addNode .empty).1.insert pattern terminal := rfl

theorem insertAll_eq (routes : List (Pattern × τ)) (hne : routes ≠ [])
    (hwf : ∀ route ∈ routes, route.1.WellFormed) :
    ∃ g starts, insertAll (register routes).terminals = .ok (g, routes.map inserted) ∧
      Chains g (routes.map Prod.fst) starts ∧ 0 < g.length := by
  rw [terminals_register]
  induction routes using List.reverseRecOn with
  | nil => exact absurd rfl hne
  | append_singleton routes route ih =>
    have hp := hwf route (by simp)
    have hstep : ∀ {g : Graph} {starts : List ℕ}, Chains g (routes.map Prod.fst) starts →
        0 < g.length →
        ∃ g' starts', g.insert route.1.render routes.length = .ok (g', route.1.names) ∧
          Chains g' ((routes ++ [route]).map Prod.fst) starts' ∧ 0 < g'.length := by
      intro g starts hg hlength
      obtain ⟨g', hins, hg', hlength'⟩ := insert_eq hg hlength hp
      rw [List.length_map] at hins
      exact ⟨g', _, hins, by simpa using hg', hlength'⟩
    by_cases hroutes : routes = []
    · subst hroutes
      obtain ⟨g', starts', hins, hg', hlength'⟩ :=
        hstep (g := (addNode .empty).1) chains_empty Nat.zero_lt_one
      refine ⟨g', starts', ?_, hg', hlength'⟩
      rw [insertAll, List.nil_append, List.map_singleton, List.foldlM_cons, insert_empty]
      simp only [List.length_nil] at hins ⊢
      rw [hins]
      rfl
    · obtain ⟨g, starts, hall, hg, hlength⟩ :=
        ih hroutes fun r hr => hwf r (List.mem_append_left _ hr)
      obtain ⟨g', starts', hins, hg', hlength'⟩ := hstep hg hlength
      refine ⟨g', starts', ?_, hg', hlength'⟩
      rw [insertAll] at hall ⊢
      rw [List.map_append, List.foldlM_append, hall, ok_bind, List.map_singleton, List.foldlM_cons,
        List.length_map, hins]
      simp [inserted]

/-- The nodes of a tree stand for lists of nodes of a graph: they have their tags and lead
where they lead. -/
structure Represents (g : Graph) (routes : List (Pattern × τ)) (tree : MatchTree τ)
    (stands : ℕ → List ℕ → Prop) :
    Prop where
  start : stands 0 ((g.node 0).edges caret)
  node : ∀ m l, stands m l → ∃ x, tree.nodes[m]? = some x ∧
    (∀ c, match x.edges c with
      | none => (l.flatMap fun q => (g.node q).edges c) = []
      | some m' => stands m' (l.flatMap fun q => (g.node q).edges c)) ∧
    slice tree.terminalTags x.terminalsStart x.terminalsEnd =
      .ok ((l.flatMap fun q => (g.node q).terminals).map (·.toTree (namesOf tree.terminals)))
  varAt : ∀ m l, stands m l → ∀ t ∈ l.flatMap fun q => (g.node q).terminals,
    varAt tree.terminals t.index m = treeVar (namesOf tree.terminals t.index) t.var
  entry : ∀ t, entry tree.terminals t = routes[t]?.map fun route =>
    (route.1.render, route.2, route.1.names)

theorem varAt_inserted (routes : List (Pattern × τ)) (t i : ℕ) :
    varAt (routes.map inserted) t i = none := by
  rw [varAt, List.getElem?_map]
  cases routes[t]? <;> rfl

theorem entry_inserted (routes : List (Pattern × τ)) (t : ℕ) :
    entry (routes.map inserted) t = routes[t]?.map fun route =>
      (route.1.render, route.2, route.1.names) := by
  rw [entry, List.getElem?_map]
  cases routes[t]? <;> rfl

/-- The part of the resolved graph behind the zero node can be copied. -/
theorem Resolved.copyable {g g' : Graph} {ps : List Pattern} {starts : List ℕ}
    (hg : Chains g ps starts) {rep : ℕ → List ℕ} {live : ℕ → Prop} (h : Resolved g g' rep live)
    (hlayered : Layered g) :
    Copyable g' (fun n => live n ∧ 0 < n) (· < ps.length) := by
  have howner : ∀ n, 0 < n → n < g.length → ∃ var, (g.node n).terminals = [⟨owner g n, var⟩] ∧
      owner g n < ps.length := by
    intro n h0 hn
    obtain ⟨i, p, k, hp, hk, hle, hlt⟩ := hg.cover n h0 hn
    obtain ⟨hi, ⟨var, htags⟩, -⟩ := hg.node hp hk hle hlt
    rw [hi]
    exact ⟨var, htags, (List.getElem?_eq_some_iff.mp hp).1⟩
  constructor
  case lt => exact fun n hn => h.lt n hn.1
  case narrow => exact fun n hn => h.narrow n hn.1
  case target => exact fun n hn c t ht => ⟨(h.target n hn.1 c t ht).2, (h.target n hn.1 c t ht).1⟩
  case tags =>
    intro n hn
    have hord := h.ordered n hn.1 hn.2
    have hindex : ∀ q ∈ rep n, (g.node q).terminals.map (·.index) = [owner g q] := by
      intro q hq
      obtain ⟨h0, hlt⟩ := hord.node q hq
      obtain ⟨var, htags⟩ := hlayered.tag q h0 hlt
      rw [htags]
      rfl
    rw [h.tags n hn.1 hn.2, List.map_flatMap, List.flatMap_congr hindex, ← List.map_eq_flatMap]
    exact (List.pairwise_map.mpr hord.pairwise).imp Nat.ne_of_lt
  case entries =>
    intro n hn t ht
    rw [h.tags n hn.1 hn.2] at ht
    obtain ⟨q, hq, ht⟩ := List.mem_flatMap.mp ht
    obtain ⟨h0, hlt⟩ := (h.ordered n hn.1 hn.2).node q hq
    obtain ⟨var, htags, hlt'⟩ := howner q h0 hlt
    rw [htags, List.mem_singleton] at ht
    rwa [ht]

/-- `rebuildGraph` comes to an end and makes a tree for the graph of the patterns. -/
theorem rebuildGraph_represents (routes : List (Pattern × τ)) (hne : routes ≠ [])
    (hwf : ∀ route ∈ routes, route.1.WellFormed) :
    ∃ g starts tree stands, Chains g (routes.map Prod.fst) starts ∧
      Represents g routes tree stands ∧
      tree.upToDate = true ∧ ∃ bound, ∀ passes, bound ≤ passes →
        (register routes).rebuildGraph passes = .ok tree := by
  obtain ⟨g, starts, hall, hg, hpos⟩ := insertAll_eq routes hne hwf
  have hlayered := hg.layered hpos
  obtain ⟨g', rep, live, hres, bound, hloop⟩ := disambiguate_resolves hlayered
  -- the zero node has one edge, to the node that stands for all starts
  have hstarts : (g.node 0).edges caret = starts := by simp [hg.zero]
  have hcaret : ((g'.node 0).edges caret).flatMap rep = starts := by
    rw [hres.edges 0 hres.zero.1, hres.zero.2, List.flatMap_singleton, hstarts]
  have hne' : starts ≠ [] := by
    intro hnil
    have := hg.count
    rw [hnil, List.length_map] at this
    exact hne (List.length_eq_zero_iff.mp this.symm)
  obtain ⟨r, hr⟩ : ∃ r, (g'.node 0).edges caret = [r] := by
    match hedges : (g'.node 0).edges caret, hres.narrow 0 hres.zero.1 caret with
    | [], _ => rw [hedges] at hcaret; exact absurd hcaret.symm hne'
    | [r], _ => exact ⟨r, rfl⟩
  rw [hr, List.flatMap_singleton] at hcaret
  obtain ⟨hr0, hrlive⟩ := hres.target 0 hres.zero.1 caret r (by simp [hr])
  have hcopyable := hres.copyable hg hlayered
  have hready : Ready (namesOf (routes.map inserted)) (· < (routes.map Prod.fst).length)
      (⟨fun _ => none, [], [], routes.map inserted⟩ : Purge τ) := by
    refine ⟨rfl, fun t ht => ?_, by simp, fun t i _ => varAt_inserted routes t i⟩
    rw [List.length_map] at ht
    simp [entry_inserted, ht]
  obtain ⟨s, m, hprocess, hready', hcopied, hm, hfirst⟩ :=
    process_eq hcopyable (g'.length + 1) r _ hready ⟨hrlive, hr0⟩
    (Nat.lt_succ_of_le (List.countP_le_length.trans_eq List.length_range))
  have hnames : namesOf s.terminals = namesOf (routes.map inserted) := hready'.names
  obtain rfl : m = 0 := hfirst rfl
  refine ⟨g, starts, ⟨s.nodes, s.tags, s.terminals, true⟩,
    fun m l => ∃ n, s.nodemap n = some m ∧ rep n = l, hg,
    ⟨⟨r, hm, hcaret.trans hstarts.symm⟩, ?_, ?_,
      fun t => (hcopied.entry t).trans (entry_inserted routes t)⟩, rfl, bound,
    fun passes hp => ?_⟩
  · rintro m l ⟨n, hn, rfl⟩
    obtain ⟨hlive, -, x, hx⟩ := hcopied.copy n m rfl hn
    refine ⟨x, hx.node, fun c => ?_, ?_⟩
    · rw [hx.edges c, ← hres.edges n hlive.1 c]
      match hedges : (g'.node n).edges c, hres.narrow n hlive.1 c with
      | [], _ => rfl
      | [t], _ =>
        obtain ⟨k, hk⟩ := Option.isSome_iff_exists.mp (hx.target c t (by simp [hedges]))
        rw [List.head?_cons, Option.bind_some, hk]
        exact ⟨t, hk, (List.flatMap_singleton ..).symm⟩
    · rw [slice, if_pos hx.bounds, hx.tags, hres.tags n hlive.1 hlive.2, hnames]
  · rintro m l ⟨n, hn, rfl⟩ t ht
    obtain ⟨hlive, -, x, hx⟩ := hcopied.copy n m rfl hn
    rw [← hres.tags n hlive.1 hlive.2] at ht
    rw [hnames]
    exact hx.varAt t ht
  · have hterminals : (register routes).terminals ≠ [] := by
      rw [terminals_register]
      simpa using hne
    rw [MatchTree.rebuildGraph, upToDate_register, if_neg (by simp), if_neg hterminals,
      hall, ok_bind]
    simp only [hloop passes hp, hr, hprocess, ok_bind]
    rfl

end Owlchain.Vibe
