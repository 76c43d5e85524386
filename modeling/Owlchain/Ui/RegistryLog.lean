import Owlchain.Ui.Registry

/-! The registry as a log. Requests only append entries and raise counters, so an entry
stays at its index with its number, title and address, and its counter grows by the
transactions for its address that no earlier entry takes. Whether an entry takes a
transaction is decided by the addresses up to its own, and these no longer change once
the entry is there. -/

namespace Owlchain.Ui

open Owlchain.Crypto Owlchain.Library

/-- The request is a transaction for the address of entry `i`, and no entry of smaller
index holds that address. -/
def Request.counts (rs : Registry) (i : ℕ) : Request → Bool
  | .runTrustContract contractAddress _ =>
    (contractIDs rs)[i]? = some contractAddress ∧ contractAddress ∉ (contractIDs rs).take i
  | _ => false

/-- The entry after `n` more transactions. -/
def ReqTrustContractList.grow (r : ReqTrustContractList) (n : ℕ) : ReqTrustContractList :=
  { r with txCount := r.txCount + UInt32.ofNat n }

@[simp] theorem grow_zero (r : ReqTrustContractList) : r.grow 0 = r := by
  simp [ReqTrustContractList.grow]

@[simp] theorem grow_grow (r : ReqTrustContractList) (m n : ℕ) :
    (r.grow m).grow n = r.grow (m + n) := by
  simp [ReqTrustContractList.grow, UInt32.ofNat_add, UInt32.add_assoc]

theorem getElem?_contractIDs {rs : Registry} {i : ℕ} {r : ReqTrustContractList}
    (h : rs[i]? = some r) :
    (contractIDs rs)[i]? = some r.contractID := by
  rw [contractIDs, List.getElem?_map, h, Option.map_some]

/-! ### One request -/

theorem getElem?_countRun (a : Text) {rs : Registry} {i : ℕ} {r : ReqTrustContractList}
    (h : rs[i]? = some r) :
    (countRun a rs)[i]? =
      some (r.grow (if r.contractID = a ∧ a ∉ (contractIDs rs).take i then 1 else 0)) := by
  induction rs generalizing i with
  | nil => cases h
  | cons e rs ih =>
    rw [countRun]
    cases i with
    | zero =>
      cases h
      by_cases ha : a = r.contractID
      · simp [ha, ReqTrustContractList.grow]
      · simp [ha, Ne.symm ha]
    | succ i =>
      rw [List.getElem?_cons_succ] at h
      by_cases ha : a = e.contractID
      · -- the transaction is taken here, so a later entry is left alone
        simp [ha, contractIDs, h]
      · rw [if_neg ha, List.getElem?_cons_succ, ih h]
        refine congrArg (fun n => some (r.grow n)) (if_congr ?_ rfl rfl)
        simp [contractIDs, ha]

/-- A request keeps every entry in its place. -/
theorem getElem?_handle {rs rs' : Registry} {q : Request} {reply : Reply}
    (h : handle rs q = .ok (rs', reply)) {i : ℕ} {r : ReqTrustContractList} (hr : rs[i]? = some r) :
    rs'[i]? = some (r.grow (if q.counts rs i then 1 else 0)) := by
  obtain ⟨_, _, _, rfl, -, rfl, -⟩ | ⟨_, _, rfl, rfl, -⟩ | ⟨a, _, rfl, rfl, -⟩ | ⟨rfl, rfl, -⟩ :=
    handle_cases h
  · simpa [Request.counts] using hr
  · rw [List.getElem?_append_left (List.getElem?_eq_some_iff.mp hr).1]
    simpa [Request.counts] using hr
  · simp [getElem?_countRun a hr, Request.counts, getElem?_contractIDs hr]
  · simpa [Request.counts] using hr

/-- Later registrations do not change which transactions an entry takes. -/
theorem counts_handle {rs rs' : Registry} {q : Request} {reply : Reply}
    (h : handle rs q = .ok (rs', reply)) {i : ℕ} {r : ReqTrustContractList} (hr : rs[i]? = some r) :
    Request.counts rs' i = Request.counts rs i := by
  have hlt : i < (contractIDs rs).length :=
    (List.getElem?_eq_some_iff.mp (getElem?_contractIDs hr)).1
  funext p
  cases p with
  | runTrustContract a contents =>
    simp only [Request.counts, contractIDs_handle h, List.getElem?_append_left hlt,
      List.take_append_of_le_length hlt.le]
  | validateTrustContract contents draws => rfl
  | confirmedTrustContract a title => rfl
  | reqTrustContractList => rfl

/-- The numbers are the positions, counted from one. -/
def Numbered (rs : Registry) : Prop := ∀ (i : ℕ) r, rs[i]? = some r → r.no = i + 1

theorem numbered_handle {rs rs' : Registry} {q : Request} {reply : Reply}
    (h : handle rs q = .ok (rs', reply)) (hrs : Numbered rs) : Numbered rs' := by
  intro i r' hr'
  by_cases hi : i < rs.length
  · have hr := List.getElem?_eq_getElem hi
    rw [getElem?_handle h hr, Option.some.injEq] at hr'
    exact hr' ▸ hrs i rs[i] hr
  · -- only a confirmation makes a new index, with the new length as its number
    obtain ⟨_, _, _, rfl, -, rfl, -⟩ | ⟨_, _, rfl, rfl, -⟩ | ⟨a, _, rfl, rfl, -⟩ | ⟨rfl, rfl, -⟩ :=
      handle_cases h
    · exact hrs i r' hr'
    · rw [List.getElem?_append_right (by omega), List.getElem?_singleton] at hr'
      split_ifs at hr' with h0
      · cases hr'
        change rs.length + 1 = i + 1
        omega
    · have hlen : (countRun a rs).length = rs.length := by
        simpa [contractIDs] using congrArg List.length (contractIDs_countRun a rs)
      have := (List.getElem?_eq_some_iff.mp hr').1
      omega
    · exact hrs i r' hr'

/-! ### Runs -/

theorem numbered_start : Numbered createReqTC := by
  intro i r hr
  have hlt : i < 5 := (List.getElem?_eq_some_iff.mp hr).1
  interval_cases i <;> cases hr <;> rfl

theorem getElem?_run : ∀ (requests : List Request) {s t : Session},
    Transition.run Session.step s requests = some t → ∀ {i : ℕ} {r : ReqTrustContractList},
      s.rs[i]? = some r → t.rs[i]? = some (r.grow (requests.countP (Request.counts s.rs i)))
  | [], s, t, hrun, i, r, hr => by
    rw [Transition.run_nil, Option.some.injEq] at hrun
    simpa [← hrun] using hr
  | q :: requests, s, t, hrun, i, r, hr => by
    obtain ⟨m, hm, hrest⟩ := Transition.run_cons_eq_some.mp hrun
    obtain ⟨reply, hq, -⟩ := step_eq_some hm
    rw [getElem?_run requests hrest (getElem?_handle hq hr), counts_handle hq hr, grow_grow,
      List.countP_cons, Nat.add_comm]

/-- In every state the numbers are the positions, and whatever happens later, each entry
is still at its index, with its number, title and address, and its counter has grown by the
transactions for its address that no entry of smaller index takes. Validating and listing
change nothing. -/
theorem registry_append_only (earlier later : List Request) (s t : Session)
    (hs : Transition.run Session.step .start earlier = some s)
    (ht : Transition.run Session.step s later = some t) :
    Numbered s.rs ∧
    (∀ (i : ℕ) r, s.rs[i]? = some r → t.rs[i]? = some { r with
      txCount := r.txCount + UInt32.ofNat (later.countP (Request.counts s.rs i)) }) ∧
    (∀ contents draws rs' reply,
      handle s.rs (.validateTrustContract contents draws) = .ok (rs', reply) → rs' = s.rs) ∧
    (∀ rs' reply, handle s.rs .reqTrustContractList = .ok (rs', reply) → rs' = s.rs) := by
  refine ⟨?_, fun i r hr => getElem?_run later ht hr, ?_, ?_⟩
  · refine Transition.run_always (fun s : Session => Numbered s.rs) ?_ earlier hs numbered_start
    intro s q t hst h
    obtain ⟨reply, hq, -⟩ := step_eq_some hst
    exact numbered_handle hq h
  · intro contents draws rs' reply h
    obtain ⟨_, _, _, -, -, rfl, -⟩ | ⟨_, _, hq, -⟩ | ⟨_, _, hq, -⟩ | ⟨hq, -⟩ := handle_cases h
    · rfl
    all_goals cases hq
  · intro rs' reply h
    cases h
    rfl

/-- An address that is registered a second time: the transactions stay with the first entry. -/
theorem registry_append_only_twice : ∃ s t, Transition.run Session.step .start
      [.confirmedTrustContract "TRX".toList "a".toList,
        .confirmedTrustContract "TRX".toList "b".toList] = some s ∧
    Transition.run Session.step s
      [.runTrustContract "TRX".toList "x".toList, .reqTrustContractList] = some t ∧
    t.rs[5]? = some ⟨6, "a".toList, "TRX".toList, 1⟩ ∧
      t.rs[6]? = some ⟨7, "b".toList, "TRX".toList, 0⟩ := by
  refine ⟨_, _, (Option.some_get (by decide)).symm, (Option.some_get (by decide)).symm, ?_⟩
  have hlog := registry_append_only
    [.confirmedTrustContract "TRX".toList "a".toList,
      .confirmedTrustContract "TRX".toList "b".toList]
    [.runTrustContract "TRX".toList "x".toList, .reqTrustContractList] _ _
    (Option.some_get (by decide)).symm (Option.some_get (by decide)).symm
  exact ⟨hlog.2.1 5 ⟨6, "a".toList, "TRX".toList, 0⟩ (by decide),
    hlog.2.1 6 ⟨7, "b".toList, "TRX".toList, 0⟩ (by decide)⟩

end Owlchain.Ui
