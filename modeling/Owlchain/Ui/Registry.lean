import Mathlib.Data.List.Nodup
import Owlchain.Crypto.Encode
import Owlchain.Library.Transition

/-! The trust contract registry of the web server: the array `rs`, the four requests
that use it, and the replies. A request handler does not yield, so a run of the server
is a list of requests, in whatever order the clients' requests arrive. Registration does
not look at the registry and a transaction is reported whether or not it was counted:
both facts are stated with the exact runs on which the registry behaves as intended. -/

namespace Owlchain.Ui

open Owlchain.Crypto Owlchain.Library

/-! ### Records -/

/-- An entry of the registry `rs`. -/
structure ReqTrustContractList where
  no : ℕ
  title : Text
  contractID : Text
  txCount : UInt32
  deriving DecidableEq

structure ValidateTrustContract where
  code : Text
  status : Text
  strMsg : Text
  address : Text
  deriving DecidableEq

structure ConfirmedTrustContract where
  code : Text
  status : Text
  strMsg : Text
  title : Text
  deriving DecidableEq

structure CreateIndividual where
  code : Text
  status : Text
  txID : Text
  deriving DecidableEq

abbrev Registry := List ReqTrustContractList

/-- The five contracts the server starts with. -/
def createReqTC : Registry :=
  [⟨1, "Crowd Idea Sourcing".toList, "TRX-N29Z-LGB7-V8HC-2JC8V".toList, 35⟩,
    ⟨2, "Fair lottery Service".toList, "TRX-CPLM-L69Y-SXMF-2MVAJ".toList, 102⟩,
    ⟨3, "One room lease".toList, "TRX-BXHG-47JL-YPMJ-2NGQJ".toList, 55⟩,
    ⟨4, "P2P Insurance platform".toList, "TRX-JAS9-RFK9-J2YE-2XBG6".toList, 134⟩,
    ⟨5, "Escrow Service".toList, "TRX-SF86-P98D-RLTD-2ZV7Q".toList, 22⟩]

/-! ### Handlers -/

/-- The index of the first entry with this address, or -1. -/
def confirmAddress (rs : Registry) (address : Text) : ℤ :=
  match rs.findIdx? (fun r => address = r.contractID) with
  | some i => i
  | none => -1

/-- A result of `uniform(0L, 1000000000000000000L)`. -/
abbrev Draw := Fin (10 ^ 18)

/-- The redraw loop of `validateTrustContract`, given the results of its draws. -/
def drawAddress (rs : Registry) : List Draw → Result Text
  | [] => .error .unfinished
  | d :: draws => do
    let address ← encodeWithPrefix "TRX".toList (d : ℕ)
    if confirmAddress rs address ≠ -1 then drawAddress rs draws else return address

def validateTrustContract (rs : Registry) (_contents : Text) (draws : List Draw) :
    Result ValidateTrustContract := do
  let address ← drawAddress rs draws
  return ⟨"00".toList, "Verify OK".toList, "Please confirm to get address".toList, address⟩

def confirmedTrustContract (rs : Registry) (contractAddress title : Text) :
    Registry × ConfirmedTrustContract :=
  (rs ++ [⟨rs.length + 1, title, contractAddress, 0⟩],
    ⟨"00".toList, "Confirm OK".toList, "Created new trust contract address".toList, title⟩)

/-- The reply is that of `if (1)`; the branch behind it is never taken. -/
def runTrustContract (rs : Registry) (contractAddress _contents : Text) :
    Result (Registry × CreateIndividual) := do
  let ca := confirmAddress rs contractAddress
  let rs ← if ca ≠ -1 then do
      let r ← load rs ca
      store rs ca { r with txCount := r.txCount + 1 }
    else pure rs
  return (rs, ⟨"00".toList, "Transaction Success".toList, contractAddress⟩)

/-- A request with its arguments; that of validation carries the draws made for it. -/
inductive Request where
  | validateTrustContract (contents : Text) (draws : List Draw)
  | confirmedTrustContract (contractAddress title : Text)
  | runTrustContract (contractAddress contents : Text)
  | reqTrustContractList
  deriving DecidableEq

inductive Reply where
  | validated (v : ValidateTrustContract)
  | confirmed (c : ConfirmedTrustContract)
  | ran (c : CreateIndividual)
  | listed (rs : Registry)
  deriving DecidableEq

def handle (rs : Registry) : Request → Result (Registry × Reply)
  | .validateTrustContract contents draws => do
    let v ← validateTrustContract rs contents draws
    return (rs, .validated v)
  | .confirmedTrustContract contractAddress title =>
    let (rs, c) := confirmedTrustContract rs contractAddress title
    .ok (rs, .confirmed c)
  | .runTrustContract contractAddress contents => do
    let (rs, c) ← runTrustContract rs contractAddress contents
    return (rs, .ran c)
  | .reqTrustContractList => .ok (rs, .listed rs)

/-- The registry with the requests answered so far. -/
structure Session where
  rs : Registry
  answered : List (Request × Reply)

def Session.start : Session := ⟨createReqTC, []⟩

/-- Answer one request. A validation that is still drawing has not been answered, and no
other request is taken meanwhile. -/
def Session.step (s : Session) (q : Request) : Option Session :=
  match handle s.rs q with
  | .ok (rs, reply) => some ⟨rs, s.answered ++ [(q, reply)]⟩
  | .error _ => none

/-! ### What a request does -/

def contractIDs (rs : Registry) : List Text := rs.map (·.contractID)

/-- Count a transaction at the first entry with this address. -/
def countRun (address : Text) : Registry → Registry
  | [] => []
  | r :: rs =>
    if address = r.contractID then { r with txCount := r.txCount + 1 } :: rs
    else r :: countRun address rs

theorem countRun_of_notMem {address : Text} {rs : Registry} (h : address ∉ contractIDs rs) :
    countRun address rs = rs := by
  induction rs with
  | nil => rfl
  | cons r rs ih =>
    simp only [contractIDs, List.map_cons, List.mem_cons, not_or] at h
    rw [countRun, if_neg h.1, ih h.2]

theorem contractIDs_countRun (address : Text) (rs : Registry) :
    contractIDs (countRun address rs) = contractIDs rs := by
  induction rs with
  | nil => rfl
  | cons r rs ih =>
    rw [countRun]
    split_ifs with h
    · rfl
    · exact congrArg (r.contractID :: ·) ih

/-- The entry that is counted: the first with the address. -/
theorem countRun_eq_set {address : Text} {rs : Registry} {i : ℕ}
    (h : rs.findIdx? (fun r => address = r.contractID) = some i) :
    ∃ r, rs[i]? = some r ∧ r.contractID = address ∧
      countRun address rs = rs.set i { r with txCount := r.txCount + 1 } := by
  induction rs generalizing i with
  | nil => cases h
  | cons r rs ih =>
    rw [List.findIdx?_cons] at h
    by_cases hr : address = r.contractID
    · rw [if_pos (by simpa using hr), Option.some.injEq] at h
      subst h
      exact ⟨r, rfl, hr.symm, by rw [countRun, if_pos hr]; rfl⟩
    · rw [if_neg (by simpa using hr), Option.map_eq_some_iff] at h
      obtain ⟨j, hj, rfl⟩ := h
      obtain ⟨e, he, hid, hset⟩ := ih hj
      exact ⟨e, he, hid, by rw [countRun, if_neg hr, hset]; rfl⟩

theorem findIdx?_eq_none {address : Text} {rs : Registry} :
    rs.findIdx? (fun r => address = r.contractID) = none ↔ address ∉ contractIDs rs := by
  rw [List.findIdx?_eq_none_iff, contractIDs, List.mem_map, not_exists]
  constructor
  · rintro h r ⟨hr, rfl⟩
    simpa using h r hr
  · intro h r hr
    have : address ≠ r.contractID := fun hid => h r ⟨hr, hid.symm⟩
    simpa using this

theorem confirmAddress_eq_neg_one {rs : Registry} {address : Text} :
    confirmAddress rs address = -1 ↔ address ∉ contractIDs rs := by
  rw [← findIdx?_eq_none, confirmAddress]
  cases rs.findIdx? (fun r => address = r.contractID) with
  | none => simp
  | some i => simp

/-- A transaction request always returns, and reports success. -/
theorem runTrustContract_eq (rs : Registry) (contractAddress contents : Text) :
    runTrustContract rs contractAddress contents = .ok (countRun contractAddress rs,
      ⟨"00".toList, "Transaction Success".toList, contractAddress⟩) := by
  unfold runTrustContract confirmAddress
  cases hi : rs.findIdx? (fun r => contractAddress = r.contractID) with
  | none => rw [countRun_of_notMem (findIdx?_eq_none.mp hi)]; rfl
  | some i =>
    obtain ⟨r, hr, -, hset⟩ := countRun_eq_set hi
    have hne : ((i : ℤ) ≠ -1) := by omega
    obtain ⟨hlt, hget⟩ := List.getElem?_eq_some_iff.mp hr
    simp only [if_pos hne, load_natCast hlt, store_natCast hlt, Loop.ok_bind, hget, hset]
    rfl

/-- A validation returns an address that no entry has. -/
theorem drawAddress_spec {rs : Registry} {draws : List Draw} {address : Text}
    (h : drawAddress rs draws = .ok address) :
    address ∉ contractIDs rs ∧
      ∃ d ∈ draws, encodeWithPrefix "TRX".toList (d : ℕ) = .ok address := by
  induction draws with
  | nil => cases h
  | cons d draws ih =>
    rw [drawAddress] at h
    cases he : encodeWithPrefix "TRX".toList (d : ℕ) with
    | error e => rw [he] at h; cases h
    | ok a =>
      rw [he, Loop.ok_bind] at h
      split_ifs at h with ha
      · obtain ⟨hfree, e, hmem, henc⟩ := ih h
        exact ⟨hfree, e, List.mem_cons_of_mem d hmem, henc⟩
      · cases h
        exact ⟨confirmAddress_eq_neg_one.mp (not_not.mp ha), d, List.mem_cons_self, he⟩

/-- Everything a request can do. -/
theorem handle_cases {rs rs' : Registry} {q : Request} {reply : Reply}
    (h : handle rs q = .ok (rs', reply)) :
    (∃ contents draws v, q = .validateTrustContract contents draws ∧
      validateTrustContract rs contents draws = .ok v ∧ rs' = rs ∧ reply = .validated v) ∨
    (∃ contractAddress title, q = .confirmedTrustContract contractAddress title ∧
      rs' = rs ++ [⟨rs.length + 1, title, contractAddress, 0⟩] ∧
      reply = .confirmed (confirmedTrustContract rs contractAddress title).2) ∨
    (∃ contractAddress contents, q = .runTrustContract contractAddress contents ∧
      rs' = countRun contractAddress rs ∧
      reply = .ran ⟨"00".toList, "Transaction Success".toList, contractAddress⟩) ∨
    (q = .reqTrustContractList ∧ rs' = rs ∧ reply = .listed rs) := by
  cases q with
  | validateTrustContract contents draws =>
    rw [handle] at h
    cases hv : validateTrustContract rs contents draws with
    | error e => rw [hv] at h; cases h
    | ok v =>
      rw [hv] at h
      cases h
      exact .inl ⟨contents, draws, v, rfl, hv, rfl, rfl⟩
  | confirmedTrustContract contractAddress title =>
    cases h
    exact .inr (.inl ⟨contractAddress, title, rfl, rfl, rfl⟩)
  | runTrustContract contractAddress contents =>
    rw [handle, runTrustContract_eq] at h
    cases h
    exact .inr (.inr (.inl ⟨contractAddress, contents, rfl, rfl, rfl⟩))
  | reqTrustContractList =>
    cases h
    exact .inr (.inr (.inr ⟨rfl, rfl, rfl⟩))

theorem step_eq_some {s t : Session} {q : Request} (h : s.step q = some t) :
    ∃ reply, handle s.rs q = .ok (t.rs, reply) ∧ t.answered = s.answered ++ [(q, reply)] := by
  unfold Session.step at h
  cases hq : handle s.rs q with
  | error e => rw [hq] at h; cases h
  | ok r =>
    rw [hq] at h
    cases h
    exact ⟨r.2, rfl, rfl⟩

/-! ### Unique identifiers -/

def Unique (rs : Registry) : Prop := (contractIDs rs).Nodup

instance : DecidablePred Unique := fun rs => inferInstanceAs (Decidable (contractIDs rs).Nodup)

/-- The addresses that a request adds to the registry. -/
def Request.registers : Request → List Text
  | .confirmedTrustContract contractAddress _ => [contractAddress]
  | _ => []

/-- The request registers no address that is already held. -/
def Request.Fresh (rs : Registry) (q : Request) : Prop := ∀ a ∈ q.registers, a ∉ contractIDs rs

instance (rs : Registry) (q : Request) : Decidable (q.Fresh rs) :=
  inferInstanceAs (Decidable (∀ a ∈ q.registers, a ∉ contractIDs rs))

theorem contractIDs_handle {rs rs' : Registry} {q : Request} {reply : Reply}
    (h : handle rs q = .ok (rs', reply)) : contractIDs rs' = contractIDs rs ++ q.registers := by
  obtain ⟨_, _, _, rfl, -, rfl, -⟩ | ⟨_, _, rfl, rfl, -⟩ | ⟨_, _, rfl, rfl, -⟩ | ⟨rfl, rfl, -⟩ :=
    handle_cases h
  · simp [Request.registers]
  · simp [Request.registers, contractIDs]
  · simp [Request.registers, contractIDs_countRun]
  · simp [Request.registers]

theorem unique_step {s t : Session} {q : Request} (h : s.step q = some t) :
    Unique t.rs ↔ Unique s.rs ∧ q.Fresh s.rs := by
  obtain ⟨reply, hq, -⟩ := step_eq_some h
  have hregisters : q.registers.Nodup := by cases q <;> simp [Request.registers]
  simp only [Unique, contractIDs_handle hq, List.nodup_append', hregisters, true_and,
    List.disjoint_right, Request.Fresh]

/-- The lookup reaches every entry exactly when the identifiers are unique. -/
theorem unique_iff_confirmAddress (rs : Registry) :
    Unique rs ↔ ∀ (i : ℕ) r, rs[i]? = some r → confirmAddress rs r.contractID = i := by
  have hids : ∀ {i : ℕ} {r}, rs[i]? = some r → (contractIDs rs)[i]? = some r.contractID := by
    intro i r hr
    rw [contractIDs, List.getElem?_map, hr, Option.map_some]
  constructor
  · intro h i r hr
    cases hj : rs.findIdx? (fun e => r.contractID = e.contractID) with
    | none =>
      exact absurd (List.mem_map_of_mem (List.mem_of_getElem? hr)) (findIdx?_eq_none.mp hj)
    | some j =>
      obtain ⟨e, he, hid, -⟩ := countRun_eq_set hj
      have hlt : j < (contractIDs rs).length := (List.getElem?_eq_some_iff.mp (hids he)).1
      have hji : j = i := (List.getElem?_inj hlt h).mp (by rw [hids he, hids hr, hid])
      rw [confirmAddress, hj, hji]
  · intro h
    rw [Unique, List.nodup_iff_getElem?_ne_getElem?]
    intro i j hij hj heq
    rw [contractIDs, List.length_map] at hj
    have hi := hids (List.getElem?_eq_getElem (hij.trans hj))
    have hj' := hids (List.getElem?_eq_getElem hj)
    rw [hi, hj', Option.some.injEq] at heq
    have hi' := h i _ (List.getElem?_eq_getElem (hij.trans hj))
    rw [heq, h j _ (List.getElem?_eq_getElem hj)] at hi'
    omega

/-- The identifiers are unique after a run, and so every entry is reached by its own
address, exactly when every confirmation in the run was of an address that no entry had. -/
theorem unique_run_iff (requests : List Request) (s : Session)
    (hrun : Transition.run Session.step .start requests = some s) :
    (Unique s.rs ↔ Transition.Along Session.step (fun s q => q.Fresh s.rs) .start requests) ∧
    (Unique s.rs ↔ ∀ (i : ℕ) r, s.rs[i]? = some r → confirmAddress s.rs r.contractID = i) := by
  refine ⟨?_, unique_iff_confirmAddress s.rs⟩
  have hstart : Unique Session.start.rs := by decide
  rw [Transition.run_iff (fun _ => True) (fun s : Session => Unique s.rs)
    (fun _ _ _ _ _ => trivial) (fun _ _ _ hst _ => unique_step hst) requests hrun trivial]
  exact and_iff_right hstart

/-- A validated address, confirmed once. -/
theorem unique_run_confirmed_once : ∃ s, Transition.run Session.step .start
    [.validateTrustContract "x".toList [0],
      .confirmedTrustContract "TRX-2222-2222-2222-22222".toList "lease".toList] =
      some s ∧ Unique s.rs := by
  refine Exists.imp (fun s h => ⟨h, (unique_run_iff _ s h).1.mpr ?_⟩)
    (Option.isSome_iff_exists.mp (by decide))
  decide

/-- The same address, confirmed twice. -/
theorem not_unique_confirmed_twice : ∃ s, Transition.run Session.step .start
    [.validateTrustContract "x".toList [0],
      .confirmedTrustContract "TRX-2222-2222-2222-22222".toList "lease".toList,
      .confirmedTrustContract "TRX-2222-2222-2222-22222".toList "lease".toList] =
      some s ∧ ¬ Unique s.rs :=
  ⟨_, (Option.some_get (by decide)).symm, by decide⟩

/-! ### Counted transactions -/

/-- The reply reports a transaction. -/
def Reply.succeeded : Reply → Bool
  | .ran c => c.code = "00".toList ∧ c.status = "Transaction Success".toList
  | _ => false

/-- What a transaction request should do: a success is counted at an entry with the
address, and a request for an address that no entry has is not a success and changes
nothing. -/
structure RunRecorded (rs : Registry) (contractAddress contents : Text) : Prop where
  counted : ∀ rs' c, runTrustContract rs contractAddress contents = .ok (rs', c) →
    (Reply.ran c).succeeded → ∃ (i : ℕ) (r : ReqTrustContractList), rs[i]? = some r ∧
      r.contractID = contractAddress ∧ rs'[i]? = some { r with txCount := r.txCount + 1 }
  refused : contractAddress ∉ contractIDs rs → ∀ rs' c,
    runTrustContract rs contractAddress contents = .ok (rs', c) →
      ¬ (Reply.ran c).succeeded ∧ rs' = rs

theorem runRecorded_iff (rs : Registry) (contractAddress contents : Text) :
    RunRecorded rs contractAddress contents ↔ contractAddress ∈ contractIDs rs := by
  constructor
  · intro h
    by_contra hnot
    exact (h.refused hnot _ _ (runTrustContract_eq rs contractAddress contents)).1 rfl
  · intro hmem
    refine ⟨fun rs' c hrun _ => ?_, fun hnot => absurd hmem hnot⟩
    rw [runTrustContract_eq] at hrun
    cases hrun
    cases hi : rs.findIdx? (fun r => contractAddress = r.contractID) with
    | none => exact absurd hmem (findIdx?_eq_none.mp hi)
    | some i =>
      obtain ⟨r, hr, hid, hset⟩ := countRun_eq_set hi
      refine ⟨i, r, hr, hid, ?_⟩
      rw [hset, List.getElem?_set_self (List.getElem?_eq_some_iff.mp hr).1]

/-- The sum of the `uint` counters. -/
def totalTxCount : Registry → UInt32
  | [] => 0
  | r :: rs => r.txCount + totalTxCount rs

theorem totalTxCount_append (rs : Registry) (r : ReqTrustContractList) :
    totalTxCount (rs ++ [r]) = totalTxCount rs + r.txCount := by
  induction rs with
  | nil =>
    change r.txCount + 0 = 0 + r.txCount
    rw [UInt32.add_comm]
  | cons e rs ih => rw [List.cons_append, totalTxCount, ih, totalTxCount, UInt32.add_assoc]

theorem totalTxCount_countRun {address : Text} {rs : Registry} (h : address ∈ contractIDs rs) :
    totalTxCount (countRun address rs) = totalTxCount rs + 1 := by
  induction rs with
  | nil => cases h
  | cons r rs ih =>
    rw [countRun]
    split_ifs with hr
    · change r.txCount + 1 + totalTxCount rs = r.txCount + totalTxCount rs + 1
      ac_rfl
    · have hmem : address ∈ contractIDs rs := by
        simpa [contractIDs, hr] using h
      rw [totalTxCount, totalTxCount, ih hmem, UInt32.add_assoc]

def Session.successes (s : Session) : ℕ := s.answered.countP (·.2.succeeded)

/-- A transaction request is for an address that some entry has. -/
def Request.Registered (rs : Registry) : Request → Prop
  | .runTrustContract contractAddress _ => contractAddress ∈ contractIDs rs
  | _ => True

instance (rs : Registry) : DecidablePred (Request.Registered rs)
  | .runTrustContract contractAddress _ =>
    inferInstanceAs (Decidable (contractAddress ∈ contractIDs rs))
  | .validateTrustContract .. | .confirmedTrustContract .. | .reqTrustContractList =>
    .isTrue trivial

theorem totalTxCount_step {s t : Session} {q : Request} (h : s.step q = some t)
    (hq : q.Registered s.rs) {c : UInt32}
    (hs : totalTxCount s.rs = c + UInt32.ofNat s.successes) :
    totalTxCount t.rs = c + UInt32.ofNat t.successes := by
  obtain ⟨reply, hhandle, hanswered⟩ := step_eq_some h
  simp only [Session.successes, hanswered, List.countP_append]
  obtain ⟨_, _, _, rfl, -, hrs, rfl⟩ | ⟨_, _, rfl, hrs, rfl⟩ | ⟨_, _, rfl, hrs, rfl⟩ |
      ⟨rfl, hrs, rfl⟩ :=
    handle_cases hhandle
  · rw [hrs]; exact hs
  · rw [hrs, totalTxCount_append, UInt32.add_zero]; exact hs
  · rw [hrs, totalTxCount_countRun hq, hs]
    have hone : UInt32.ofNat (s.successes + 1) = UInt32.ofNat s.successes + 1 :=
      UInt32.ofNat_add _ _
    rw [UInt32.add_assoc, ← hone]
    rfl
  · rw [hrs]; exact hs

/-- After any run a transaction request is recorded exactly when its address is registered,
and if all those of the run were, the counters have grown by the number of successes. -/
theorem runRecorded_run (requests : List Request) (s : Session)
    (hrun : Transition.run Session.step .start requests = some s) :
    (∀ contractAddress contents,
      RunRecorded s.rs contractAddress contents ↔ contractAddress ∈ contractIDs s.rs) ∧
    (Transition.Along Session.step (fun s q => q.Registered s.rs) .start requests →
      totalTxCount s.rs = totalTxCount createReqTC + UInt32.ofNat s.successes) := by
  refine ⟨runRecorded_iff s.rs, fun halong => ?_⟩
  refine Transition.run_invariant (fun s : Session =>
    totalTxCount s.rs = totalTxCount createReqTC + UInt32.ofNat s.successes) ?_ requests
      hrun halong rfl
  intro s q t hst hq hs
  exact totalTxCount_step hst hq hs

/-- A transaction of the first contract. -/
theorem runRecorded_run_first : ∃ s, Transition.run Session.step .start
    [.runTrustContract "TRX-N29Z-LGB7-V8HC-2JC8V".toList "x".toList] = some s ∧
      RunRecorded s.rs "TRX-N29Z-LGB7-V8HC-2JC8V".toList "x".toList ∧
      totalTxCount s.rs = totalTxCount createReqTC + UInt32.ofNat s.successes := by
  have hrun := (Option.some_get (x := Transition.run Session.step .start
    [.runTrustContract "TRX-N29Z-LGB7-V8HC-2JC8V".toList "x".toList]) (by decide)).symm
  obtain ⟨hrecorded, htotal⟩ := runRecorded_run _ _ hrun
  exact ⟨_, hrun, (hrecorded _ _).mpr (by decide), htotal (by decide)⟩

/-- A transaction of an address that no entry has is reported as a success. -/
theorem not_runRecorded_unregistered :
    ¬ RunRecorded createReqTC "TRX-2222-2222-2222-22222".toList "x".toList := by
  intro h
  have hrefused := h.refused (by decide) createReqTC _ rfl
  exact hrefused.1 rfl

end Owlchain.Ui
