import Owlchain.Ui.Registry

/-! Creating a contract from the browser. The submit button of a page validates on its
first click and confirms on every later one; the CSS class `confirm` is its only state,
and the address to confirm is read from the reply by a field name. Requests and replies
of any number of pages are in flight and arrive in any order. The two sides agree on the
routes but not on the field: the reply has `address`, the page reads `contractAddress`. -/

namespace Owlchain.Ui

open Owlchain.Crypto Owlchain.Library

/-! ### The page -/

/-- An object of named texts, as the page reads it. -/
abbrev Json := List (Text × Text)

/-- `data.name`; a missing field is `undefined`. -/
def Json.field (data : Json) (name : String) : Option Text := data.lookup name.toList

/-- `"" + v`. -/
def concatText : Option Text → Text
  | some t => t
  | none => "undefined".toList

def ValidateTrustContract.toJson (v : ValidateTrustContract) : Json :=
  [("code".toList, v.code), ("status".toList, v.status), ("strMsg".toList, v.strMsg),
    ("address".toList, v.address)]

def ConfirmedTrustContract.toJson (c : ConfirmedTrustContract) : Json :=
  [("code".toList, c.code), ("status".toList, c.status), ("strMsg".toList, c.strMsg),
    ("title".toList, c.title)]

/-- The class of the submit button and the two globals set by its callback. -/
structure Page where
  confirm : Bool
  contractID : Option Text
  contractAddress : Option Text

def Page.blank : Page := ⟨false, none, none⟩

/-- A request of the submit button, with the texts put into its path. -/
inductive Ajax where
  | validate (title : Text)
  | confirm (contractAddress title : Text)
  deriving DecidableEq

/-- The click handler of the submit button. -/
def Page.click (page : Page) (title : Text) : Page × Ajax :=
  if page.confirm then (page, .confirm (concatText page.contractAddress) title)
  else ({ page with confirm := true }, .validate title)

theorem Page.contractAddress_click (page : Page) (title : Text) :
    (page.click title).1.contractAddress = page.contractAddress := by
  unfold Page.click
  split_ifs <;> rfl

theorem Page.eq_concatText_of_click {page : Page} {title contractAddress title' : Text}
    (h : (page.click title).2 = .confirm contractAddress title') :
    contractAddress = concatText page.contractAddress := by
  unfold Page.click at h
  split_ifs at h
  cases h
  rfl

/-- The callback of a request; that of a confirmation only shows texts. -/
def Page.receive (page : Page) (data : Json) : Ajax → Page
  | .validate _ =>
    { page with
      contractID := data.field "tempContractID"
      contractAddress := data.field "contractAddress" }
  | .confirm _ _ => page

/-- The argument of the callback after a success and after a failure. -/
def ajaxDone (data : Json) : Json := data ++ [("mode".toList, "done".toList)]

def ajaxFail : Json := [("mode".toList, "fail".toList)]

/-! ### Pages and server -/

/-- `issued` and `registered` record what the server did for each page: the addresses
returned, with the title validated, and the entries appended. -/
structure World where
  page : ℕ → Page
  requests : List (ℕ × Ajax)
  replies : List (ℕ × Ajax × Json)
  rs : Registry
  issued : List (ℕ × Text × Text)
  registered : List (ℕ × ReqTrustContractList)

def World.start : World := ⟨fun _ => .blank, [], [], createReqTC, [], []⟩

inductive PageEvent where
  | click (p : ℕ) (title : Text)
  /-- a request in flight reaches the server -/
  | serve (k : ℕ) (draws : List Draw)
  /-- a request in flight fails -/
  | lose (k : ℕ)
  /-- a reply in flight reaches its page -/
  | deliver (k : ℕ)
  /-- a request of another client -/
  | other (q : Request)
  deriving DecidableEq

/-- The server answers a request of page `p`. -/
def World.answer (w : World) (p : ℕ) (draws : List Draw) : Ajax → Option World
  | .validate title =>
    match validateTrustContract w.rs title draws with
    | .ok v => some { w with
        replies := w.replies ++ [(p, .validate title, ajaxDone v.toJson)]
        issued := w.issued ++ [(p, title, v.address)] }
    | .error _ => none
  | .confirm contractAddress title =>
    let (rs, c) := confirmedTrustContract w.rs contractAddress title
    some { w with
      replies := w.replies ++ [(p, .confirm contractAddress title, ajaxDone c.toJson)]
      rs := rs
      registered := w.registered ++ (rs.drop w.rs.length).map (p, ·) }

def World.step (w : World) : PageEvent → Option World
  | .click p title =>
    some { w with
      page := Function.update w.page p ((w.page p).click title).1
      requests := w.requests ++ [(p, ((w.page p).click title).2)] }
  | .serve k draws => w.requests[k]?.bind fun (p, request) =>
    { w with requests := w.requests.eraseIdx k }.answer p draws request
  | .lose k => w.requests[k]?.map fun (p, request) =>
    { w with
      requests := w.requests.eraseIdx k
      replies := w.replies ++ [(p, request, ajaxFail)] }
  | .deliver k => w.replies[k]?.map fun (p, request, data) =>
    { w with
      page := Function.update w.page p ((w.page p).receive data request)
      replies := w.replies.eraseIdx k }
  | .other q =>
    match handle w.rs q with
    | .ok (rs, _) => some { w with rs := rs }
    | .error _ => none

/-- What the two sides are to achieve together: an entry that a page appends has an
address issued to that page for that contract, and no issued address is used twice. -/
structure FlowSound (w : World) : Prop where
  issued : ∀ p r, (p, r) ∈ w.registered → (p, r.title, r.contractID) ∈ w.issued
  once : ∀ p title address, (p, title, address) ∈ w.issued →
    (w.registered.map (·.2.contractID)).count address ≤ 1

def Ajax.isConfirm : Ajax → Bool
  | .validate _ => false
  | .confirm _ _ => true

/-- The event is not the arrival of a confirmation at the server. -/
def PageEvent.NoConfirmation (w : World) : PageEvent → Prop
  | .serve k _ => ∀ x ∈ w.requests[k]?, x.2.isConfirm = false
  | _ => True

instance (w : World) : DecidablePred (PageEvent.NoConfirmation w)
  | .serve k _ => inferInstanceAs (Decidable (∀ x ∈ w.requests[k]?, x.2.isConfirm = false))
  | .click .. | .lose _ | .deliver _ | .other _ => .isTrue trivial

/-! ### The address that is confirmed -/

/-- The page never learns an address. -/
structure World.Inv (w : World) : Prop where
  page : ∀ p, (w.page p).contractAddress = none
  replies : ∀ x ∈ w.replies, x.2.2.field "contractAddress" = none
  requests : ∀ p contractAddress title, (p, .confirm contractAddress title) ∈ w.requests →
    contractAddress = "undefined".toList
  issued : ∀ x ∈ w.issued, x.2.2 ≠ "undefined".toList
  registered : ∀ x ∈ w.registered, x.2.contractID = "undefined".toList

theorem World.inv_start : World.start.Inv := by
  constructor
  · exact fun _ => rfl
  all_goals simp [World.start]

theorem validateTrustContract_address_ne {rs : Registry} {contents : Text} {draws : List Draw}
    {v : ValidateTrustContract} (h : validateTrustContract rs contents draws = .ok v) :
    v.address ≠ "undefined".toList := by
  rw [validateTrustContract] at h
  cases ha : drawAddress rs draws with
  | error e => rw [ha] at h; cases h
  | ok a =>
    rw [ha] at h
    cases h
    obtain ⟨-, d, -, hd⟩ := drawAddress_spec ha
    rw [encodeWithPrefix] at hd
    cases hc : encode (d : ℕ) with
    | error e => rw [hc] at hd; cases hd
    | ok cypher =>
      rw [hc] at hd
      cases hd
      simp

theorem World.inv_answer {w t : World} (hw : w.Inv) {p : ℕ} {draws : List Draw} {request : Ajax}
    (hrequest : ∀ contractAddress title, request = .confirm contractAddress title →
      contractAddress = "undefined".toList)
    (h : w.answer p draws request = some t) : t.Inv := by
  cases request with
  | validate title =>
    rw [World.answer] at h
    split at h
    · rename_i v hv
      cases h
      refine ⟨hw.page, ?_, hw.requests, ?_, hw.registered⟩
      · exact List.forall_mem_append.mpr ⟨hw.replies, List.forall_mem_singleton.mpr rfl⟩
      · exact List.forall_mem_append.mpr ⟨hw.issued,
          List.forall_mem_singleton.mpr (validateTrustContract_address_ne hv)⟩
    · cases h
  | confirm contractAddress title =>
    cases h
    refine ⟨hw.page, ?_, hw.requests, hw.issued, ?_⟩
    · exact List.forall_mem_append.mpr ⟨hw.replies, List.forall_mem_singleton.mpr rfl⟩
    · refine List.forall_mem_append.mpr ⟨hw.registered, ?_⟩
      rw [List.drop_left, List.map_singleton, List.forall_mem_singleton]
      exact hrequest contractAddress title rfl

theorem World.inv_step (w : World) (e : PageEvent) (t : World) (h : w.step e = some t)
    (hw : w.Inv) :
    t.Inv := by
  cases e with
  | click p title =>
    cases h
    refine ⟨?_, hw.replies, fun q contractAddress title' hmem => ?_, hw.issued, hw.registered⟩
    · refine (Function.forall_update_iff w.page (fun _ page => page.contractAddress = none)).mpr
        ⟨?_, fun q _ => hw.page q⟩
      rw [Page.contractAddress_click]
      exact hw.page p
    · rcases List.mem_append.mp hmem with hmem | hmem
      · exact hw.requests q contractAddress title' hmem
      · obtain ⟨-, hclick⟩ := Prod.mk.inj (List.mem_singleton.mp hmem)
        rw [Page.eq_concatText_of_click hclick.symm, hw.page]
        rfl
  | serve k draws =>
    -- the request is taken out of flight first, which keeps the invariant
    obtain ⟨⟨p, request⟩, hk, ht⟩ := Option.bind_eq_some_iff.mp h
    refine World.inv_answer (w := { w with requests := w.requests.eraseIdx k }) ?_ ?_ ht
    · exact ⟨hw.page, hw.replies, fun q a title hmem =>
        hw.requests q a title (List.mem_of_mem_eraseIdx hmem),
        hw.issued, hw.registered⟩
    · rintro contractAddress title rfl
      exact hw.requests p contractAddress title (List.mem_of_getElem? hk)
  | lose k =>
    obtain ⟨⟨p, request⟩, hk, ht⟩ := Option.map_eq_some_iff.mp h
    cases ht
    refine ⟨hw.page, ?_, fun q a title hmem =>
      hw.requests q a title (List.mem_of_mem_eraseIdx hmem),
      hw.issued, hw.registered⟩
    exact List.forall_mem_append.mpr ⟨hw.replies, List.forall_mem_singleton.mpr rfl⟩
  | deliver k =>
    obtain ⟨⟨p, request, data⟩, hk, ht⟩ := Option.map_eq_some_iff.mp h
    cases ht
    refine ⟨?_, fun x hx => hw.replies x (List.mem_of_mem_eraseIdx hx), hw.requests, hw.issued,
      hw.registered⟩
    refine (Function.forall_update_iff w.page (fun _ page => page.contractAddress = none)).mpr
      ⟨?_, fun q _ => hw.page q⟩
    cases request with
    | validate title => exact hw.replies _ (List.mem_of_getElem? hk)
    | confirm contractAddress title => exact hw.page p
  | other q =>
    rw [World.step] at h
    split at h
    · cases h
      exact ⟨hw.page, hw.replies, hw.requests, hw.issued, hw.registered⟩
    · cases h

/-- An address that was issued is never the one that is confirmed. -/
theorem World.Inv.flowSound_iff {w : World} (hw : w.Inv) : FlowSound w ↔ w.registered = [] := by
  constructor
  · intro h
    rw [List.eq_nil_iff_forall_not_mem]
    rintro ⟨p, r⟩ hmem
    exact hw.issued _ (h.issued p r hmem) (hw.registered _ hmem)
  · intro h
    refine ⟨fun p r hmem => ?_, fun p title address _ => ?_⟩
    · rw [h] at hmem
      cases hmem
    · rw [h]
      exact Nat.zero_le 1

/-- Only the arrival of a confirmation registers an entry for a page. -/
theorem World.registered_step (w : World) (e : PageEvent) (t : World) (h : w.step e = some t) :
    t.registered = [] ↔ w.registered = [] ∧ e.NoConfirmation w := by
  cases e with
  | serve k draws =>
    obtain ⟨⟨p, request⟩, hk, ht⟩ := Option.bind_eq_some_iff.mp h
    cases request with
    | validate title =>
      simp only [World.answer] at ht
      split at ht
      · cases ht
        simp [PageEvent.NoConfirmation, hk, Ajax.isConfirm]
      · cases ht
    | confirm contractAddress title =>
      cases ht
      simp [PageEvent.NoConfirmation, hk, Ajax.isConfirm]
  | click p title =>
    cases h
    simp [PageEvent.NoConfirmation]
  | lose k | deliver k =>
    obtain ⟨x, hk, ht⟩ := Option.map_eq_some_iff.mp h
    cases ht
    simp [PageEvent.NoConfirmation]
  | other q =>
    rw [World.step] at h
    split at h
    · cases h
      simp [PageEvent.NoConfirmation]
    · cases h

/-- The flow is sound exactly as long as no page's confirmation has reached the server:
every entry that one appends has the address `undefined`. -/
theorem flowSound_run_iff (events : List PageEvent) (w : World)
    (hrun : Transition.run World.step .start events = some w) :
    (FlowSound w ↔ Transition.Along World.step (fun w e => e.NoConfirmation w) .start events) ∧
      ∀ p r, (p, r) ∈ w.registered → r.contractID = "undefined".toList := by
  have hinv : w.Inv := Transition.run_always World.Inv World.inv_step events hrun World.inv_start
  refine ⟨?_, fun p r hmem => hinv.registered (p, r) hmem⟩
  rw [hinv.flowSound_iff, Transition.run_iff (fun _ => True) (fun w : World => w.registered = [])
    (fun _ _ _ _ _ => trivial) (fun w e t h _ => World.registered_step w e t h) events hrun trivial]
  exact and_iff_right rfl

/-- A page validates a contract. -/
theorem flowSound_validated : ∃ w, Transition.run World.step .start
    [.click 0 "lease".toList, .serve 0 [0], .deliver 0] = some w ∧ FlowSound w := by
  refine Exists.imp (fun w h => ⟨h, (flowSound_run_iff _ w h).1.mpr ?_⟩)
    (Option.isSome_iff_exists.mp (by decide))
  decide

/-- The page goes on to confirm it, and the entry has the address `undefined`. -/
theorem not_flowSound_confirmed : ∃ w, Transition.run World.step .start
    [.click 0 "lease".toList, .serve 0 [0], .deliver 0, .click 0 "lease".toList, .serve 0 []] =
      some w ∧
      (0, ⟨6, "lease".toList, "undefined".toList, 0⟩) ∈ w.registered ∧
      w.issued = [(0, "lease".toList, "TRX-2222-2222-2222-22222".toList)] ∧ ¬ FlowSound w := by
  refine ⟨_, (Option.some_get (by decide)).symm, by decide, by decide, fun h => ?_⟩
  exact absurd (h.issued 0 ⟨6, "lease".toList, "undefined".toList, 0⟩ (by decide)) (by decide)

end Owlchain.Ui
