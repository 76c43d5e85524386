import Owlchain.Vibe.MatchTree

/-! Which routes the match tree offers for a text. A text matches a pattern if it is the
pattern with a text in the place of each gap, and the values of the placeholders are these
texts. For every list of patterns the tree finds exactly the patterns that match with
non-empty values, in the order in which they were registered, and their values. -/

namespace Owlchain.Vibe

open Owlchain.Library Loop

variable {τ σ : Type}

/-! ### Matching a pattern -/

/-- What a gap adds to the values of the placeholders. -/
def Gap.value : Gap → Bytes → List Bytes
  | .none, _ => []
  | .var _, v => [v]
  | .rest, _ => []

/-- The text is the pattern with texts in its gaps, and these are the values. -/
inductive Instance : Gap → List (UInt8 × Gap) → List Bytes → Bytes → Prop
  | last {k : Gap} {v : Bytes} (hv : ∀ x ∈ v, k.takes x) : Instance k [] (k.value v) v
  | cell {k k' : Gap} {c : UInt8} {cells : List (UInt8 × Gap)} {v text : Bytes} {vals : List Bytes}
      (hv : ∀ x ∈ v, k.takes x) (h : Instance k' cells vals text) :
      Instance k ((c, k') :: cells) (k.value v ++ vals) (v ++ c :: text)

/-- The values of the placeholders, if the text matches, where `v` was read in the first gap. -/
def fill : Gap → List (UInt8 × Gap) → Bytes → Bytes → Option (List Bytes)
  | k, [], v, [] => some (k.value v)
  | _, _ :: _, _, [] => none
  | k, cells, v, c :: text =>
    if k.takes c then fill k cells (v ++ [c]) text
    else match cells with
      | [] => none
      | (c', k') :: cells => if c = c' then (fill k' cells [] text).map (k.value v ++ ·) else none

/-- The values of the placeholders of a pattern, if the text matches and none of them is empty. -/
def Pattern.values (p : Pattern) (text : Bytes) : Option (List Bytes) :=
  (fill p.first p.cells [] text).filter fun vals => !vals.any (·.isEmpty)

theorem fill_takes {k : Gap} {cells : List (UInt8 × Gap)} {c : UInt8} (h : k.takes c)
    (v text : Bytes) :
    fill k cells v (c :: text) = fill k cells (v ++ [c]) text := by
  cases cells <;> rw [fill, if_pos h]

theorem fill_cell {k k' : Gap} {cells : List (UInt8 × Gap)} {c c' : UInt8} (h : ¬ k.takes c)
    (v text : Bytes) :
    fill k ((c', k') :: cells) v (c :: text) =
      if c = c' then (fill k' cells [] text).map (k.value v ++ ·) else none := by
  rw [fill, if_neg h]

theorem fill_end {k : Gap} {c : UInt8} (h : ¬ k.takes c) (v text : Bytes) :
    fill k [] v (c :: text) = none := by
  rw [fill, if_neg h]

/-- The text of a gap, followed by something else. -/
theorem fill_append {k : Gap} {cells : List (UInt8 × Gap)} {v : Bytes} (hv : ∀ x ∈ v, k.takes x)
    (u text : Bytes) :
    fill k cells u (v ++ text) = fill k cells (u ++ v) text := by
  induction v generalizing u with
  | nil => simp
  | cons c v ih =>
    rw [List.cons_append, fill_takes (hv c List.mem_cons_self),
      ih fun x hx => hv x (List.mem_cons_of_mem c hx)]
    simp

theorem Instance.fill_eq {k : Gap} {cells : List (UInt8 × Gap)} {vals : List Bytes} {text : Bytes}
    (h : Instance k cells vals text) (hfit : CellsFit k cells) :
    fill k cells [] text = some vals := by
  induction h with
  | @last k v hv =>
    rw [← List.append_nil v, fill_append hv, List.append_nil, List.nil_append, fill]
  | @cell k k' c cells v text vals hv h ih =>
    have htakes : ¬ k.takes c = true := by simp [Gap.Fits.not_takes hfit.gap]
    obtain ⟨-, -, -, -, hrest⟩ := hfit
    rw [fill_append hv, List.nil_append, fill_cell htakes, if_pos rfl, ih hrest, Option.map_some]

theorem instance_of_fill {k : Gap} {cells : List (UInt8 × Gap)} {v text : Bytes} {vals : List Bytes}
    (hv : ∀ x ∈ v, k.takes x) (h : fill k cells v text = some vals) :
    Instance k cells vals (v ++ text) := by
  induction text generalizing k cells v vals with
  | nil =>
    cases cells with
    | nil =>
      rw [fill, Option.some.injEq] at h
      rw [← h, List.append_nil]
      exact .last hv
    | cons cell cells => rw [fill] at h; cases h
  | cons c text ih =>
    by_cases htakes : k.takes c = true
    · rw [fill_takes htakes] at h
      have hv' : ∀ x ∈ v ++ [c], k.takes x := by
        intro x hx
        rcases List.mem_append.mp hx with hx | hx
        · exact hv x hx
        · rw [List.mem_singleton.mp hx]
          exact htakes
      have := ih hv' h
      rwa [List.append_assoc] at this
    · cases cells with
      | nil => rw [fill_end htakes] at h; cases h
      | cons cell cells =>
        obtain ⟨c', k'⟩ := cell
        rw [fill_cell htakes] at h
        split_ifs at h with hc
        obtain ⟨rest, hrest, rfl⟩ := Option.map_eq_some_iff.mp h
        subst hc
        exact .cell hv (ih (by simp) hrest)

/-- A pattern has the values exactly if the text is the pattern with them put in. -/
theorem values_eq_some_iff {p : Pattern} (hp : p.WellFormed) {text : Bytes} {vals : List Bytes} :
    p.values text = some vals ↔ Instance p.first p.cells vals text ∧ [] ∉ vals := by
  have hempty : (!vals.any (·.isEmpty)) = true ↔ [] ∉ vals := by
    rw [Bool.not_eq_true', ← Bool.not_eq_true, List.any_eq_true]
    simp
  rw [Pattern.values, Option.filter_eq_some_iff, hempty]
  refine and_congr_left fun _ => ⟨fun h => ?_, fun h => h.fill_eq hp.fits⟩
  exact instance_of_fill (by simp) h

/-! ### The end of the text -/

/-- The edges of a graph as an automaton. -/
def Graph.next (g : Graph) (q : ℕ) (c : UInt8) : List ℕ := (g.node q).edges c

theorem Gap.not_takes_terminal (k : Gap) : k.takes terminalChar = false := by
  cases k <;> rfl

/-- Behind the end of a chain nothing follows. -/
theorem after_end {g : Graph} {t n : ℕ} (h : g.node n = openCell t .none n) {text : Bytes}
    (hne : text ≠ []) :
    Subset.after g.next [n] text = [] := by
  obtain ⟨c, text, rfl⟩ := List.exists_cons_of_ne_nil hne
  rw [Subset.after_cons, List.flatMap_singleton, Graph.next, h]
  simp [openCell, Gap.takes]

/-- A chain is at its end behind the text exactly if the text matches. -/
theorem Chain.tags_after {g : Graph} {t : ℕ} {k : Gap} {cells : List (UInt8 × Gap)} {n : ℕ}
    (h : Chain g t k cells n) (hfit : CellsFit k cells) (v text : Bytes) :
    ((Subset.after g.next [n] (text ++ [terminalChar])).flatMap fun q => (g.node q).terminals) =
      if (fill k cells v text).isSome then [⟨t, []⟩] else [] := by
  have hedges : ∀ {k : Gap} {n : ℕ} {c : UInt8} {m : ℕ} (x : UInt8),
      g.node n = chainCell t k n c m →
      (([n] : List ℕ).flatMap fun q => g.next q x) =
        if k.takes x then [n] else if x = c then [m] else [] := by
    intro k n c m x hn
    rw [List.flatMap_singleton, Graph.next, hn]
    rfl
  induction text generalizing k cells n v with
  | nil =>
    rw [List.nil_append, Subset.after_cons, Subset.after_nil]
    cases cells with
    | nil =>
      rw [hedges _ h.1, if_neg (by simp [k.not_takes_terminal]), if_pos rfl,
        List.flatMap_singleton, h.2]
      simp [fill, openCell, Gap.name]
    | cons cell cells =>
      obtain ⟨c, k'⟩ := cell
      obtain ⟨-, -, -, hterminal, -⟩ := hfit
      rw [hedges _ h.1, if_neg (by simp [k.not_takes_terminal]), if_neg hterminal.symm]
      simp [fill]
  | cons x text ih =>
    rw [List.cons_append, Subset.after_cons]
    by_cases htakes : k.takes x = true
    · rw [fill_takes htakes, ← ih h hfit]
      cases cells <;> rw [hedges _ h.1, if_pos htakes]
    · cases cells with
      | nil =>
        rw [hedges _ h.1, if_neg htakes, fill_end htakes]
        by_cases hx : x = terminalChar
        · rw [if_pos hx, after_end h.2 (by simp)]
          rfl
        · rw [if_neg hx, Subset.after_empty]
          rfl
      | cons cell cells =>
        obtain ⟨c, k'⟩ := cell
        rw [hedges _ h.1, if_neg htakes, fill_cell htakes]
        by_cases hx : x = c
        · obtain ⟨-, -, -, -, hrest⟩ := hfit
          rw [if_pos hx, if_pos hx, Option.isSome_map]
          exact ih h.2 hrest []
        · rw [if_neg hx, if_neg hx, Subset.after_empty]
          rfl

/-! ### The values -/

/-- What `matchVars` would return if the text ended before the character `i`. -/
def flushAt (text : Bytes) (i : ℕ) (var : Option ℕ) (s : Scan) : Result (List Bytes) :=
  match s.activevar with
  | none => .ok s.dst
  | some a => do
    let value ← if var = some a then slice text s.activevarstart i
      else sliceBefore text s.activevarstart i
    assign s.dst a value

theorem slice_self {α : Type} {l : List α} {i : ℕ} (h : i ≤ l.length) : slice l i i = .ok [] := by
  rw [slice_eq_ok_iff]
  exact ⟨⟨Nat.le_refl i, h⟩, List.drop_eq_nil_of_le (List.length_take_le i l)⟩

theorem sliceBefore_succ {α : Type} (l : List α) (a i : ℕ) :
    sliceBefore l a (i + 1) = slice l a i := by
  rw [sliceBefore, if_neg (Nat.succ_ne_zero i), Nat.add_sub_cancel]

theorem slice_succ {α : Type} {l out : List α} {a i : ℕ} {c : α} (h : slice l a i = .ok out)
    (hc : l[i]? = some c) :
    slice l a (i + 1) = .ok (out ++ [c]) := by
  obtain ⟨⟨hai, -⟩, rfl⟩ := slice_eq_ok_iff.mp h
  obtain ⟨hi, rfl⟩ := List.getElem?_eq_some_iff.mp hc
  rw [slice_eq_ok_iff]
  refine ⟨⟨by omega, hi⟩, ?_⟩
  rw [List.take_succ_eq_append_getElem hi, List.drop_append_of_le_length]
  rw [List.length_take]
  omega

theorem bind_eq_ok {ε : Type} {α β : Type} {x : Except ε α} {f : α → Except ε β} {b : β}
    (h : (x >>= f) = .ok b) :
    ∃ a, x = .ok a ∧ f a = .ok b := by
  cases x with
  | error e => cases h
  | ok a => exact ⟨a, rfl, h⟩

/-- Once the end and the beginning of placeholders were detected, the active one is that of
the current node, and the values of the others have been written. -/
theorem detect_eq {text : Bytes} {i : ℕ} {var : Option ℕ} {s : Scan} {out : List Bytes}
    (hi : i ≤ text.length) (hflush : flushAt text i var s = .ok out)
    (hnew : ∀ j, var = some j → s.activevar ≠ some j → out[j]? = some []) :
    ∃ s', endVar text var s i = .ok s' ∧ (beginVar var s' i).nidx = s.nidx ∧
      (beginVar var s' i).activevar = var ∧
      (var = none → (beginVar var s' i).dst = out) ∧
      ∀ j, var = some j → ∃ v, slice text (beginVar var s' i).activevarstart i = .ok v ∧
        out[j]? = some v ∧
        j < (beginVar var s' i).dst.length ∧ (beginVar var s' i).dst.set j v = out := by
  -- a placeholder that begins here has no text yet
  have hbegin : ∀ s' : Scan, s'.nidx = s.nidx → s'.activevar = none → s'.dst = out →
      (∀ j, var = some j → s.activevar ≠ some j) →
      (beginVar var s' i).nidx = s.nidx ∧ (beginVar var s' i).activevar = var ∧
      (var = none → (beginVar var s' i).dst = out) ∧
      ∀ j, var = some j → ∃ v, slice text (beginVar var s' i).activevarstart i = .ok v ∧
        out[j]? = some v ∧
        j < (beginVar var s' i).dst.length ∧ (beginVar var s' i).dst.set j v = out := by
    intro s' hnidx hnone hdst hne
    cases var with
    | none =>
      have hsame : beginVar none s' i = s' := by simp [beginVar, hnone]
      rw [hsame]
      exact ⟨hnidx, hnone, fun _ => hdst, fun j hj => nomatch hj⟩
    | some j =>
      have hj := hnew j rfl (hne j rfl)
      obtain ⟨hlt, hget⟩ := List.getElem?_eq_some_iff.mp hj
      have hstart : beginVar (some j) s' i =
          { s' with activevar := some j, activevarstart := i } := by
        simp [beginVar, hnone]
      rw [hstart]
      refine ⟨hnidx, rfl, fun h => (nomatch h), fun j' hj' => ?_⟩
      obtain rfl := Option.some.inj hj'
      refine ⟨[], slice_self hi, hj, by rw [hdst]; exact hlt, ?_⟩
      dsimp only
      rw [hdst]
      conv_rhs => rw [← List.set_getElem_self hlt, hget]
  cases hactive : s.activevar with
  | none =>
    rw [flushAt, hactive, Except.ok.injEq] at hflush
    refine ⟨s, by rw [endVar, hactive], hbegin s rfl hactive hflush fun j _ => ?_⟩
    simp [hactive]
  | some a =>
    rw [flushAt, hactive] at hflush
    dsimp only at hflush
    by_cases hvar : var = some a
    · rw [if_pos hvar] at hflush
      obtain ⟨v, hslice, hassign⟩ := bind_eq_ok hflush
      obtain ⟨hlt, hset⟩ := assign_eq_ok_iff.mp hassign
      have hsame : beginVar var s i = s := by simp [beginVar, hactive]
      refine ⟨s, by rw [endVar, hactive]; exact if_pos hvar, ?_⟩
      rw [hsame]
      refine ⟨rfl, hactive.trans hvar.symm, fun h => ?_, fun j hj => ?_⟩
      · rw [hvar] at h
        cases h
      · obtain rfl : a = j := by rw [hvar] at hj; exact Option.some.inj hj
        exact ⟨v, hslice, by rw [← hset, List.getElem?_set_self hlt], hlt, hset⟩
    · rw [if_neg hvar] at hflush
      obtain ⟨v, hslice, hassign⟩ := bind_eq_ok hflush
      refine ⟨{ s with dst := out, activevar := none }, ?_, hbegin _ rfl rfl rfl fun j hj heq => ?_⟩
      · rw [endVar, hactive]
        dsimp only
        rw [if_neg hvar, hslice, ok_bind, hassign, ok_bind]
        rfl
      · rw [hactive] at heq
        exact hvar (hj.trans heq.symm)

/-- The character at `i` leads out of the placeholder or is not in one. -/
theorem flushAt_leave {text : Bytes} {i : ℕ} {var var' : Option ℕ} {s : Scan} {out : List Bytes}
    (hactive : s.activevar = var) (hnone : var = none → s.dst = out)
    (hsome : ∀ j, var = some j → ∃ v, slice text s.activevarstart i = .ok v ∧ out[j]? = some v ∧
      j < s.dst.length ∧
      s.dst.set j v = out) (hne : ∀ j, var = some j → var' ≠ some j) :
    flushAt text (i + 1) var' s = .ok out := by
  cases var with
  | none => rw [flushAt, hactive, ← hnone rfl]
  | some j =>
    obtain ⟨v, hslice, -, hlt, hset⟩ := hsome j rfl
    rw [flushAt, hactive]
    dsimp only
    rw [if_neg (hne j rfl), sliceBefore_succ, hslice, ok_bind]
    exact assign_eq_ok_iff.mpr ⟨hlt, hset⟩

/-- The character at `i` belongs to the placeholder. -/
theorem flushAt_stay {text : Bytes} {i j : ℕ} {s : Scan} {out : List Bytes} {v : Bytes} {c : UInt8}
    (hactive : s.activevar = some j) (hc : text[i]? = some c)
    (hslice : slice text s.activevarstart i = .ok v)
    (hlt : j < s.dst.length) (hset : s.dst.set j v = out) :
    flushAt text (i + 1) (some j) s = .ok (out.set j (v ++ [c])) := by
  rw [flushAt, hactive]
  dsimp only
  rw [if_pos rfl, slice_succ hslice hc, ok_bind]
  refine assign_eq_ok_iff.mpr ⟨hlt, ?_⟩
  rw [← hset, List.set_set]

/-- The placeholder of a gap, as an index. -/
def Gap.index : Gap → ℕ → Option ℕ
  | .none, _ => Option.none
  | .var _, i => some i
  | .rest, _ => Option.none

theorem treeVar_gap {k : Gap} {cells : List (UInt8 × Gap)} {before : List Bytes}
    (hfit : CellsFit k cells) (hnodup : (before ++ namesFrom k cells).Nodup) :
    treeVar (before ++ namesFrom k cells) k.name = k.index before.length := by
  cases k with
  | none => rfl
  | rest => rfl
  | var name =>
    obtain ⟨hne, -, -⟩ := hfit.gap
    have hnew : name ∉ before := fun hmem =>
      List.disjoint_of_nodup_append hnodup hmem (by simp [namesFrom, Gap.names])
    have hbefore : before.findIdx? (· = name) = none := by
      rw [List.findIdx?_eq_none_iff]
      intro x hx
      simpa using fun h : x = name => hnew (h ▸ hx)
    rw [Gap.name, treeVar, if_neg hne, List.findIdx?_append, hbefore]
    simp [namesFrom, Gap.names, Gap.index, List.findIdx?_cons]

theorem Gap.length_value (k : Gap) (v : Bytes) : (k.value v).length = k.names.length := by
  cases k <;> rfl

theorem Gap.value_nil (k : Gap) : k.value [] = List.replicate k.names.length [] := by
  cases k <;> rfl

section Tree
variable {g : Graph} {routes : List (Pattern × τ)} {tree : MatchTree τ} {stands : ℕ → List ℕ → Prop}

theorem Chain.tag_mem {t n : ℕ} {k : Gap} {cells : List (UInt8 × Gap)} (h : Chain g t k cells n)
    {l : List ℕ} (hn : n ∈ l) :
    (⟨t, k.name⟩ : TerminalTag) ∈ l.flatMap fun q => (g.node q).terminals := by
  refine List.mem_flatMap.mpr ⟨n, hn, ?_⟩
  cases cells with
  | nil => rw [h.1]; exact List.mem_singleton_self _
  | cons cell cells => rw [h.1]; exact List.mem_singleton_self _

/-- A node behind the edge that the chain of a pattern takes. -/
theorem Represents.step (h : Represents g routes tree stands) {m : ℕ} {l : List ℕ}
    (hm : stands m l) {n n' : ℕ} {c : UInt8} (hn : n ∈ l) (hn' : n' ∈ (g.node n).edges c) :
    ∃ x m', tree.nodes[m]? = some x ∧ x.edges c = some m' ∧
      stands m' (l.flatMap fun q => (g.node q).edges c) ∧
      n' ∈ l.flatMap fun q => (g.node q).edges c := by
  obtain ⟨x, hx, hedges, -⟩ := h.node m l hm
  have hmem : n' ∈ l.flatMap fun q => (g.node q).edges c := List.mem_flatMap.mpr ⟨n, hn, hn'⟩
  have hc := hedges c
  cases hnext : x.edges c with
  | none =>
    rw [hnext] at hc
    rw [show (l.flatMap fun q => (g.node q).edges c) = [] from hc] at hmem
    cases hmem
  | some m' =>
    rw [hnext] at hc
    exact ⟨x, m', hx, hnext, hc, hmem⟩

/-- The scan of `matchVars`, from a node in which the pattern is at the gap `k`, of which it
has read `v`. -/
theorem scan_eq (h : Represents g routes tree stands) {t : ℕ} {term : Terminal τ}
    (hterm : tree.terminals[t]? = some term) (text rest : Bytes) :
    ∀ (before done : List Bytes) {k : Gap} {cells : List (UInt8 × Gap)} {v : Bytes}
      {vals : List Bytes} {i n : ℕ} {l : List ℕ} {s : Scan},
      text.drop i = rest → i ≤ text.length → stands s.nidx l → n ∈ l → Chain g t k cells n →
      CellsFit k cells →
      namesOf tree.terminals t = before ++ namesFrom k cells → (namesOf tree.terminals t).Nodup →
      done.length = before.length →
      flushAt text i (k.index before.length) s =
        .ok (done ++ k.value v ++
          List.replicate (cells.flatMap fun cell => cell.2.names).length []) →
      (∀ j, k.index before.length = some j → s.activevar ≠ some j → v = []) →
      fill k cells v rest = some vals →
      ∃ s', tree.scan term text s i rest = .ok s' ∧
        finishScan text (term.varMap s'.nidx) s' = .ok (done ++ vals) := by
  have hvarAt : ∀ m, varAt tree.terminals t m = term.varMap m := fun m => by rw [varAt, hterm]; rfl
  induction rest with
  | nil =>
    intro before done k cells v vals i n l s hdrop hi hm hn hchain hfit hnames hnodup hdone
      hflush hnew hfill
    cases cells with
    | cons cell cells => rw [fill] at hfill; cases hfill
    | nil =>
      rw [fill, Option.some.injEq] at hfill
      have hvar : term.varMap s.nidx = k.index before.length := by
        rw [← hvarAt, h.varAt s.nidx l hm _ (hchain.tag_mem hn), hnames,
          treeVar_gap hfit (hnames ▸ hnodup)]
      obtain rfl : i = text.length := by
        have := List.drop_eq_nil_iff.mp hdrop
        omega
      refine ⟨s, by rw [MatchTree.scan], ?_⟩
      rw [List.flatMap_nil, List.length_nil, List.replicate_zero, List.append_nil] at hflush
      rw [hvar, ← hfill]
      exact hflush
  | cons c rest ih =>
    intro before done k cells v vals i n l s hdrop hi hm hn hchain hfit hnames hnodup hdone
      hflush hnew hfill
    have hvar : term.varMap s.nidx = k.index before.length := by
      rw [← hvarAt, h.varAt s.nidx l hm _ (hchain.tag_mem hn), hnames,
        treeVar_gap hfit (hnames ▸ hnodup)]
    have hc : text[i]? = some c := by
      have := congrArg (·[0]?) hdrop
      simpa using this
    have hi' : i + 1 ≤ text.length := (List.getElem?_eq_some_iff.mp hc).1
    have hdrop' : text.drop (i + 1) = rest := by
      rw [← List.drop_drop, hdrop]
      rfl
    obtain ⟨s₁, hend, hnidx, hactive, hnone, hsome⟩ := detect_eq hi hflush fun j hj hne => by
      cases k with
      | none => cases hj
      | rest => cases hj
      | var name =>
        obtain rfl := Option.some.inj hj
        rw [hnew _ rfl hne, ← hdone]
        simp [Gap.value]
    -- one turn of the loop, once the next node is known
    have hturn : ∀ {n'}, n' ∈ (g.node n).edges c →
        ∃ m', stands m' (l.flatMap fun q => (g.node q).edges c) ∧
          n' ∈ (l.flatMap fun q => (g.node q).edges c) ∧
          tree.scan term text s i (c :: rest) =
            tree.scan term text { beginVar (k.index before.length) s₁ i with nidx := m' }
              (i + 1) rest := by
      intro n' hn'
      obtain ⟨x, m', hx, hedge, hstands, hmem⟩ := h.step hm hn hn'
      refine ⟨m', hstands, hmem, ?_⟩
      rw [MatchTree.scan]
      simp only [hvar, hend, ok_bind, hnidx, at?, hx, hedge]
    by_cases htakes : k.takes c = true
    · -- the pattern stays in the gap
      rw [fill_takes htakes] at hfill
      have hself : n ∈ (g.node n).edges c := by
        cases cells <;> (rw [hchain.1]; simp [chainCell, htakes])
      obtain ⟨m', hstands, hmem, hscan⟩ := hturn hself
      rw [hscan]
      refine ih before done hdrop' hi' hstands hmem hchain hfit hnames hnodup hdone ?_ ?_ hfill
      · cases k with
        | none => cases htakes
        | rest => exact flushAt_leave hactive hnone hsome fun j hj => by cases hj
        | var name =>
          obtain ⟨w, hslice, hget, hlt, hset⟩ := hsome _ rfl
          obtain rfl : v = w := by
            rw [← hdone] at hget
            simpa [Gap.value] using hget
          refine (flushAt_stay hactive hc hslice hlt hset).trans ?_
          rw [← hdone]
          simp [Gap.value]
      · exact fun j hj hne => absurd (hactive.trans hj) hne
    · -- the character is the next one of the pattern
      cases cells with
      | nil => rw [fill_end htakes] at hfill; cases hfill
      | cons cell cells =>
        obtain ⟨c', k'⟩ := cell
        rw [fill_cell htakes] at hfill
        split_ifs at hfill with hcc
        subst hcc
        obtain ⟨vals', hfill', rfl⟩ := Option.map_eq_some_iff.mp hfill
        have hnext : n + 1 ∈ (g.node n).edges c := by
          rw [hchain.1]
          simp [chainCell, htakes]
        obtain ⟨m', hstands, hmem, hscan⟩ := hturn hnext
        obtain ⟨-, -, -, -, hrest⟩ := hfit
        rw [hscan, ← List.append_assoc]
        refine ih (before ++ k.names) (done ++ k.value v) hdrop' hi' hstands hmem hchain.2 hrest ?_
          hnodup ?_ ?_ (fun _ _ _ => rfl) hfill'
        · rw [hnames, List.append_assoc]
          rfl
        · rw [List.length_append, List.length_append, hdone, k.length_value]
        · have hout : done ++ k.value v ++
                List.replicate (((c, k') :: cells).flatMap fun cell => cell.2.names).length [] =
              done ++ k.value v ++ k'.value [] ++
                List.replicate (cells.flatMap fun cell => cell.2.names).length [] := by
            rw [List.flatMap_cons, List.length_append, ← List.replicate_append_replicate,
              k'.value_nil, ← List.append_assoc]
          rw [← hout]
          refine flushAt_leave hactive hnone hsome fun j hj => ?_
          cases k with
          | none => cases hj
          | rest => cases hj
          | var name =>
            obtain rfl := Option.some.inj hj
            cases k' <;> simp [Gap.index, Gap.names]

/-- `matchVars` finds the values of the placeholders. -/
theorem matchVars_eq (h : Represents g routes tree stands) {t n : ℕ} {route : Pattern × τ}
    (hroute : routes[t]? = some route) (hp : route.1.WellFormed) (hn : n ∈ (g.node 0).edges caret)
    (hchain : Chain g t route.1.first route.1.cells n) {text : Bytes} {vals : List Bytes}
    (hfill : fill route.1.first route.1.cells [] text = some vals) :
    ∃ term, tree.terminals[t]? = some term ∧ term.varNames = route.1.names ∧
      tree.matchVars term text = .ok vals := by
  have hentry := h.entry t
  rw [hroute, Option.map_some, entry] at hentry
  obtain ⟨term, hterm, heq⟩ := Option.map_eq_some_iff.mp hentry
  simp only [Prod.mk.injEq] at heq
  have hnames : namesOf tree.terminals t = [] ++ namesFrom route.1.first route.1.cells := by
    rw [namesOf, entry, hterm, Option.map_some, heq.2.2]
    rfl
  refine ⟨term, hterm, heq.2.2, ?_⟩
  obtain ⟨s', hscan, hfinish⟩ := scan_eq h hterm text text [] []
    (s := ⟨0, none, 0, List.replicate term.varNames.length []⟩) List.drop_zero
      (Nat.zero_le _) h.start hn hchain hp.fits hnames
    (by rw [hnames]; exact hp.names) rfl
    (by
      rw [flushAt, List.nil_append, Gap.value_nil, List.replicate_append_replicate, heq.2.2,
        ← List.length_append]
      rfl)
    (fun _ _ _ => rfl) hfill
  rw [MatchTree.matchVars, hscan, ok_bind, hfinish, List.nil_append]

/-- The tree follows a text in one node, which stands for all nodes in which the graph can be. -/
theorem follow_eq (h : Represents g routes tree stands) (text : Bytes) :
    ∀ {m : ℕ} {l : List ℕ} {x : TreeNode}, stands m l → tree.nodes[m]? = some x →
      (tree.follow x text = .ok none ∧ Subset.after g.next l text = []) ∨
      ∃ m' x', tree.follow x text = .ok (some x') ∧ tree.nodes[m']? = some x' ∧
        stands m' (Subset.after g.next l text) := by
  induction text with
  | nil => exact fun {m l x} hm hx => .inr ⟨m, x, by rw [MatchTree.follow], hx, hm⟩
  | cons c text ih =>
    intro m l x hm hx
    obtain ⟨y, hy, hedges, -⟩ := h.node m l hm
    obtain rfl : x = y := Option.some.inj (hx.symm.trans hy)
    have hc := hedges c
    rw [MatchTree.follow, Subset.after_cons]
    cases hnext : x.edges c with
    | none =>
      rw [hnext] at hc
      refine .inl ⟨rfl, ?_⟩
      rw [show (l.flatMap fun q => g.next q c) = [] from hc, Subset.after_empty]
    | some m' =>
      rw [hnext] at hc
      obtain ⟨x', hx', -⟩ := h.node m' _ hc
      simp only [at?, hx', ok_bind]
      exact ih hc hx'

/-- The end node, which stands for all ends of chains at which the graph can be. -/
theorem matchTerminals_eq (h : Represents g routes tree stands) (text : Bytes) :
    (tree.matchTerminals text = .ok none ∧
      Subset.after g.next ((g.node 0).edges caret) (text ++ [terminalChar]) = []) ∨
    ∃ m x, tree.matchTerminals text = .ok (some x) ∧ tree.nodes[m]? = some x ∧
      stands m (Subset.after g.next ((g.node 0).edges caret) (text ++ [terminalChar])) := by
  obtain ⟨x, hx, -⟩ := h.node 0 _ h.start
  have hlen : tree.nodes.length ≠ 0 := by
    have := (List.getElem?_eq_some_iff.mp hx).1
    omega
  rw [Subset.after_concat, MatchTree.matchTerminals, if_neg hlen]
  simp only [at?, hx, ok_bind]
  rcases follow_eq h text h.start hx with ⟨hfollow, hafter⟩ | ⟨m, y, hfollow, hy, hm⟩
  · rw [hfollow, hafter]
    exact .inl ⟨rfl, rfl⟩
  · obtain ⟨y', hy', hedges, -⟩ := h.node m _ hm
    obtain rfl : y = y' := Option.some.inj (hy.symm.trans hy')
    have hc := hedges terminalChar
    cases hnext : y.edges terminalChar with
    | none =>
      rw [hnext] at hc
      refine .inl ⟨?_, hc⟩
      simp only [hfollow, ok_bind, hnext]
    | some m' =>
      rw [hnext] at hc
      obtain ⟨z, hz, -⟩ := h.node m' _ hc
      refine .inr ⟨m', z, ?_, hz, hc⟩
      simp only [hfollow, ok_bind, hnext, hz]
      rfl

/-- The tags that `doMatch` goes through. -/
theorem doMatch_eq (h : Represents g routes tree stands) (text : Bytes)
    (del : ℕ → List Bytes → σ → Bool × σ) (s : σ) :
    tree.doMatch text del s = tree.offerTags text del
      (((Subset.after g.next ((g.node 0).edges caret) (text ++ [terminalChar])).flatMap fun q =>
        (g.node q).terminals).map
        (·.toTree (namesOf tree.terminals))) s := by
  rw [MatchTree.doMatch]
  rcases matchTerminals_eq h text with ⟨hmatch, hafter⟩ | ⟨m, x, hmatch, hx, hm⟩
  · rw [hmatch, hafter]
    rfl
  · obtain ⟨y, hy, -, hslice⟩ := h.node m _ hm
    obtain rfl : x = y := Option.some.inj (hx.symm.trans hy)
    simp only [hmatch, ok_bind, hslice]

/-! ### The routes that are offered -/

/-- Offer routes with their values to the delegate, until it accepts one. -/
def offer (del : ℕ → List Bytes → σ → Bool × σ) : List (ℕ × List Bytes) → σ → Bool × σ
  | [], s => (false, s)
  | (t, vals) :: rest, s =>
    match del t vals s with
    | (true, s) => (true, s)
    | (false, s) => offer del rest s

/-- The routes from the number `t` on that match a text, with their values. -/
def candidatesFrom (t : ℕ) (ps : List Pattern) (text : Bytes) : List (ℕ × List Bytes) :=
  (ps.zipIdx t).filterMap fun q => (q.1.values text).map (q.2, ·)

def candidates (ps : List Pattern) (text : Bytes) : List (ℕ × List Bytes) :=
  candidatesFrom 0 ps text

theorem candidatesFrom_cons (t : ℕ) (p : Pattern) (ps : List Pattern) (text : Bytes) :
    candidatesFrom t (p :: ps) text = ((p.values text).map (t, ·)).toList ++
      candidatesFrom (t + 1) ps text := by
  rw [candidatesFrom, List.zipIdx_cons, List.filterMap_cons]
  cases p.values text <;> rfl

theorem mem_candidates {ps : List Pattern} {text : Bytes} {t : ℕ} {vals : List Bytes} :
    (t, vals) ∈ candidates ps text ↔ ∃ p, ps[t]? = some p ∧ p.values text = some vals := by
  simp only [candidates, candidatesFrom, List.mem_filterMap, Option.map_eq_some_iff, Prod.mk.injEq,
    Prod.exists, List.mem_zipIdx_iff_getElem?]
  constructor
  · rintro ⟨p, i, hp, vals, hvals, rfl, rfl⟩
    exact ⟨p, hp, hvals⟩
  · rintro ⟨p, hp, hvals⟩
    exact ⟨p, t, hp, vals, hvals, rfl, rfl⟩

/-- The tags of the patterns from `t` on. -/
theorem offerTags_eq (h : Represents g routes tree stands)
    (hwf : ∀ route ∈ routes, route.1.WellFormed)
    (hmax : ∀ route ∈ routes, route.1.names.length ≤ maxRouteParameters) (text : Bytes)
    (del : ℕ → List Bytes → σ → Bool × σ) (suffix : List (Pattern × τ)) :
    ∀ {t : ℕ} {starts : List ℕ} {s : σ}, starts.length = suffix.length →
      (∀ (j : ℕ) route n, suffix[j]? = some route → starts[j]? = some n →
        routes[t + j]? = some route ∧
        Chain g (t + j) route.1.first route.1.cells n ∧ n ∈ (g.node 0).edges caret) →
      tree.offerTags text del
        (((starts.flatMap fun n => Subset.after g.next [n] (text ++ [terminalChar])).flatMap
          fun q => (g.node q).terminals).map (·.toTree (namesOf tree.terminals))) s =
      .ok (offer del (candidatesFrom t (suffix.map Prod.fst) text) s) := by
  induction suffix with
  | nil =>
    intro t starts s hlen _
    rw [List.length_eq_zero_iff.mp hlen]
    rfl
  | cons route suffix ih =>
    intro t starts s hlen hchains
    obtain ⟨n, starts, rfl⟩ : ∃ n starts', starts = n :: starts' :=
      List.exists_cons_of_length_eq_add_one hlen
    obtain ⟨hroute, hchain, hn⟩ := hchains 0 route n rfl rfl
    rw [Nat.add_zero] at hroute hchain
    have hmem := List.mem_of_getElem? hroute
    have hrest : ∀ s, tree.offerTags text del
        (((starts.flatMap fun n => Subset.after g.next [n] (text ++ [terminalChar])).flatMap
          fun q => (g.node q).terminals).map (·.toTree (namesOf tree.terminals))) s =
        .ok (offer del (candidatesFrom (t + 1) (suffix.map Prod.fst) text) s) := by
      intro s
      refine ih (Nat.succ.inj hlen) fun j route n hr hn => ?_
      have := hchains (j + 1) route n hr hn
      rwa [← Nat.add_assoc, Nat.add_right_comm] at this
    rw [List.map_cons, candidatesFrom_cons, List.flatMap_cons, List.flatMap_append,
      hchain.tags_after (hwf route hmem).fits [] text, Pattern.values]
    cases hfill : fill route.1.first route.1.cells [] text with
    | none => exact hrest s
    | some vals =>
      obtain ⟨term, hterm, hnames, hvars⟩ := matchVars_eq h hroute (hwf route hmem) hn hchain hfill
      have hle : ¬ maxRouteParameters < term.varNames.length := by
        rw [hnames]
        exact Nat.not_lt.mpr (hmax route hmem)
      rw [Option.isSome_some, if_pos rfl, List.singleton_append, List.map_cons, MatchTree.offerTags]
      simp only [TerminalTag.toTree, at?, hterm, ok_bind, if_neg hle, hvars]
      by_cases hempty : vals.any (·.isEmpty) = true
      · rw [if_pos hempty, Option.filter_some_neg (by simp [hempty])]
        exact hrest s
      · rw [if_neg hempty, Option.filter_some_pos (by simp [hempty])]
        rw [Option.map_some, Option.toList_some, List.singleton_append, offer]
        rcases hdel : del t vals s with ⟨accepted, s'⟩
        cases accepted with
        | true => rfl
        | false => exact hrest s'

end Tree

/-- The match tree of any routes is built without an error, and for every text it offers the
candidates. -/
theorem tree_offers (routes : List (Pattern × τ)) (hwf : ∀ route ∈ routes, route.1.WellFormed)
    (hmax : ∀ route ∈ routes, route.1.names.length ≤ maxRouteParameters) :
    ∃ tree : MatchTree τ, tree.upToDate = true ∧
      (∀ t, entry tree.terminals t = routes[t]?.map fun route =>
        (route.1.render, route.2, route.1.names)) ∧
      (∃ bound, ∀ passes, bound ≤ passes → (register routes).rebuildGraph passes = .ok tree) ∧
      ∀ (σ : Type) text (del : ℕ → List Bytes → σ → Bool × σ) s,
        tree.doMatch text del s = .ok (offer del (candidates (routes.map Prod.fst) text) s) := by
  by_cases hne : routes = []
  · subst hne
    exact ⟨⟨[], [], [], true⟩, rfl, fun t => rfl, ⟨0, fun passes _ => rfl⟩, fun σ text del s => rfl⟩
  · obtain ⟨g, starts, tree, stands, hg, hrep, hdate, hbound⟩ :=
      rebuildGraph_represents routes hne hwf
    have hstarts : (g.node 0).edges caret = starts := by simp [hg.zero]
    refine ⟨tree, hdate, hrep.entry, hbound, fun σ text del s => ?_⟩
    have hsplit : Subset.after g.next starts (text ++ [terminalChar]) =
        starts.flatMap fun n => Subset.after g.next [n] (text ++ [terminalChar]) := by
      conv_lhs => rw [← List.flatMap_singleton' starts]
      rw [Subset.after_flatMap]
    rw [doMatch_eq hrep, hstarts, hsplit]
    refine offerTags_eq hrep hwf hmax text del routes (by rw [hg.count, List.length_map])
      fun j route n hr hn => ?_
    rw [Nat.zero_add]
    refine ⟨hr, (hg.chain j route.1 n ?_ hn).1, ?_⟩
    · rw [List.getElem?_map, hr]
      rfl
    · rw [hstarts]
      exact List.mem_of_getElem? hn

theorem candidatesFrom_sorted (t : ℕ) (ps : List Pattern) (text : Bytes) :
    (candidatesFrom t ps text).Pairwise (fun a b => a.1 < b.1) ∧
      ∀ a ∈ candidatesFrom t ps text, t ≤ a.1 := by
  induction ps generalizing t with
  | nil => exact ⟨.nil, by simp [candidatesFrom]⟩
  | cons p ps ih =>
    obtain ⟨hsorted, hle⟩ := ih (t + 1)
    rw [candidatesFrom_cons]
    cases p.values text with
    | none => exact ⟨hsorted, fun a ha => Nat.le_of_succ_le (hle a ha)⟩
    | some vals =>
      refine ⟨List.pairwise_cons.mpr ⟨fun a ha => hle a ha, hsorted⟩, fun a ha => ?_⟩
      rcases List.mem_cons.mp ha with rfl | ha
      · exact Nat.le_refl t
      · exact Nat.le_of_succ_le (hle a ha)

/-- What the router promises: for every text there is a list of the routes of which the text
is an instance with non-empty values, in their order, and a match offers this list to the
delegate until it accepts a route. -/
theorem router_match_exact (routes : List (Pattern × τ))
    (hwf : ∀ route ∈ routes, route.1.WellFormed)
    (hmax : ∀ route ∈ routes, route.1.names.length ≤ maxRouteParameters) :
    ∃ tree : MatchTree τ, (∃ bound, ∀ passes, bound ≤ passes →
      (register routes).rebuildGraph passes = .ok tree) ∧
      ∀ text, ∃ found : List (ℕ × List Bytes), found.Pairwise (fun a b => a.1 < b.1) ∧
        (∀ t vals, (t, vals) ∈ found ↔
          ∃ route, routes[t]? = some route ∧ Instance route.1.first route.1.cells vals text ∧
            [] ∉ vals) ∧
        ∀ (σ : Type) (del : ℕ → List Bytes → σ → Bool × σ) s,
          tree.doMatch text del s = .ok (offer del found s) := by
  obtain ⟨tree, -, -, hbuilt, hmatch⟩ := tree_offers routes hwf hmax
  refine ⟨tree, hbuilt, fun text =>
    ⟨candidates (routes.map Prod.fst) text, (candidatesFrom_sorted 0 _ text).1, ?_,
    fun σ del s => hmatch σ text del s⟩⟩
  intro t vals
  rw [mem_candidates]
  constructor
  · rintro ⟨p, hp, hvals⟩
    rw [List.getElem?_map, Option.map_eq_some_iff] at hp
    obtain ⟨route, hroute, rfl⟩ := hp
    exact ⟨route, hroute, (values_eq_some_iff (hwf route (List.mem_of_getElem? hroute))).mp hvals⟩
  · rintro ⟨route, hroute, hinstance⟩
    refine ⟨route.1, by rw [List.getElem?_map, hroute]; rfl, ?_⟩
    exact (values_eq_some_iff (hwf route (List.mem_of_getElem? hroute))).mpr hinstance

/-- The routes `ab` and `a:v`. -/
def sampleRoutes : List (Pattern × Unit) :=
  [(⟨.none, [(97, .none), (98, .none)]⟩, ()), (⟨.none, [(97, .var [118])]⟩, ())]

/-- For the text `ab` both routes are offered, the second one with the value `b`. -/
theorem router_match_exact_sample : ∃ (tree : MatchTree Unit) (found : List (ℕ × List Bytes)),
    (0, []) ∈ found ∧ (1, [[98]]) ∈ found ∧
      ∀ (del : ℕ → List Bytes → ℕ → Bool × ℕ) s,
        tree.doMatch [97, 98] del s = .ok (offer del found s) := by
  obtain ⟨tree, -, hmatch⟩ := router_match_exact sampleRoutes (by decide) (by decide)
  obtain ⟨found, -, hmem, hdo⟩ := hmatch [97, 98]
  refine ⟨tree, found, (hmem 0 []).mpr ⟨_, rfl, ?_⟩, (hmem 1 [[98]]).mpr ⟨_, rfl, ?_⟩, hdo ℕ⟩
  · exact (values_eq_some_iff (by decide)).mp rfl
  · exact (values_eq_some_iff (by decide)).mp rfl

end Owlchain.Vibe
