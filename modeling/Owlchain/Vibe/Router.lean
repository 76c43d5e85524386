import Owlchain.Vibe.RouteMatch
import Owlchain.Vibe.UrlEncode

/-! Requests. The router passes a request to the callbacks of the routes that match its path
and its method, one after the other, until one of them has written the header of the
response; a HEAD request that none of them has answered is tried again as a GET request. The
match tree is only a faster way to do this: a request is answered as if the routes were
tried one by one. A REST interface takes its parameters from the path. They are decoded with
the path and then once more, so not every text can be passed. -/

namespace Owlchain.Vibe

open Owlchain.Library Loop

inductive HTTPMethod where
  | GET | HEAD | PUT | POST | PATCH | DELETE | OPTIONS | TRACE | CONNECT
  | PROPFIND | PROPPATCH | MKCOL | COPY | MOVE | LOCK | UNLOCK
  | VERSIONCONTROL | REPORT | CHECKOUT | CHECKIN | UNCHECKOUT | MKWORKSPACE | UPDATE | LABEL | MERGE
  | BASELINECONTROL | MKACTIVITY
  | ORDERPATCH
  | ACL
  deriving DecidableEq

/-- `req.params`. -/
abbrev Params := Bytes → Option Bytes

/-- A route; what its callback does with the response is a function of the parameters. -/
structure Route (σ : Type) where
  method : HTTPMethod
  cb : Params → σ → σ

/-- The parts of a request and its response that the router changes. -/
structure Exchange (σ : Type) where
  params : Params
  res : σ

variable {σ : Type}

/-! ### The router -/

/-- `foreach (i, v; values) req.params[varNames[i]] = v`. -/
def setParams (params : Params) (varNames values : List Bytes) : Params :=
  (varNames.zip values).foldl (fun params nv => Function.update params nv.1 (some nv.2)) params

/-- The delegate of `handleRequest`. The tree only offers terminals that it has. -/
def callRoute (headerWritten : σ → Bool) (method : HTTPMethod)
    (terminals : List (Terminal (Route σ))) (ridx : ℕ) (values : List Bytes)
    (x : Exchange σ) : Bool × Exchange σ :=
  match terminals[ridx]? with
  | none => (false, x)
  | some term =>
    if term.data.method ≠ method then (false, x)
    else
      let params := setParams x.params term.varNames values
      let res := term.data.cb params x.res
      (headerWritten res, ⟨params, res⟩)

/-- `handleRequest` of a router with the common path `root` of all its routes. The tree is
built when it is first needed. -/
def handleRequest (headerWritten : σ → Bool) (m : MatchTree (Route σ)) (passes : ℕ) (root : Bytes)
    (method : HTTPMethod) (path : Bytes) (x : Exchange σ) :
    Result (MatchTree (Route σ) × Exchange σ) :=
  if path.length < root.length ∨ path.take root.length ≠ root then .ok (m, x)
  else do
    let path := path.drop root.length
    let (m, done, x) ← m.matchText passes path (callRoute headerWritten method) x
    if done then return (m, x)
    else if method = .HEAD then do
      let (m, _, x) ← m.matchText passes path (callRoute headerWritten .GET) x
      return (m, x)
    else return (m, x)

/-- The requests of a connection after the other; each has a response of its own. -/
def handleRequests (headerWritten : σ → Bool) (passes : ℕ) (root : Bytes) (respond : σ → σ)
    (state : MatchTree (Route σ) × σ) (requests : List (HTTPMethod × Bytes)) :
    Result (MatchTree (Route σ) × σ) :=
  requests.foldlM
    (fun state q => do
      let (m, x) ← handleRequest headerWritten state.1 passes root q.1 q.2
        ⟨fun _ => none, respond state.2⟩
      return (m, x.res))
    state

/-! ### Trying the routes one by one -/

/-- Try all routes for a method; the flag says that one has answered. -/
def visit (headerWritten : σ → Bool) (method : HTTPMethod) (path : Bytes) :
    List (Pattern × Route σ) → Exchange σ → Bool × Exchange σ
  | [], x => (false, x)
  | (p, r) :: routes, x =>
    match p.values path with
    | none => visit headerWritten method path routes x
    | some values =>
      if r.method ≠ method then visit headerWritten method path routes x
      else
        let params := setParams x.params p.names values
        let res := r.cb params x.res
        if headerWritten res then (true, ⟨params, res⟩)
        else visit headerWritten method path routes ⟨params, res⟩

/-- What a router does with a request. -/
def serve (headerWritten : σ → Bool) (routes : List (Pattern × Route σ)) (root : Bytes)
    (method : HTTPMethod) (path : Bytes) (x : Exchange σ) : Exchange σ :=
  if root <+: path then
    match visit headerWritten method (path.drop root.length) routes x with
    | (true, x) => x
    | (false, x) =>
      if method = .HEAD then (visit headerWritten .GET (path.drop root.length) routes x).2 else x
  else x

/-- Offering the candidates to the delegate is trying the routes. -/
theorem offer_candidates (headerWritten : σ → Bool) {terminals : List (Terminal (Route σ))}
    (method : HTTPMethod) (path : Bytes) (routes : List (Pattern × Route σ)) :
    ∀ {t : ℕ} {x : Exchange σ}, (∀ (j : ℕ) route, routes[j]? = some route →
        entry terminals (t + j) = some (route.1.render, route.2, route.1.names)) →
      offer (callRoute headerWritten method terminals)
        (candidatesFrom t (routes.map Prod.fst) path) x =
        visit headerWritten method path routes x := by
  induction routes with
  | nil => exact fun _ => rfl
  | cons route routes ih =>
    intro t x hentry
    obtain ⟨p, r⟩ := route
    have hrest : ∀ x, offer (callRoute headerWritten method terminals)
        (candidatesFrom (t + 1) (routes.map Prod.fst) path) x =
        visit headerWritten method path routes x := by
      intro x
      refine ih fun j route hj => ?_
      have := hentry (j + 1) route hj
      rwa [← Nat.add_assoc, Nat.add_right_comm] at this
    have hhead := hentry 0 (p, r) rfl
    rw [Nat.add_zero, entry, Option.map_eq_some_iff] at hhead
    obtain ⟨term, hterm, heq⟩ := hhead
    simp only [Prod.mk.injEq] at heq
    rw [List.map_cons, candidatesFrom_cons, visit]
    cases p.values path with
    | none => exact hrest x
    | some values =>
      simp only [Option.map_some, Option.toList_some, List.singleton_append, offer, callRoute,
        hterm, heq.2.1, heq.2.2]
      by_cases hmethod : r.method = method
      · simp only [hmethod, ne_eq, not_true_eq_false, if_false]
        cases hwritten : headerWritten (r.cb (setParams x.params p.names values) x.res) with
        | true => simp
        | false => simpa using hrest _
      · simp only [ne_eq, hmethod, not_false_eq_true, if_true]
        exact hrest x

/-- The tree of a router: not built yet, or built. -/
def TreeOf (routes : List (Pattern × Route σ)) (passes : ℕ) (m : MatchTree (Route σ)) : Prop :=
  m = register routes ∨ (m.upToDate = true ∧ (register routes).rebuildGraph passes = .ok m)

/-- One request. -/
theorem handleRequest_eq (routes : List (Pattern × Route σ))
    (hwf : ∀ route ∈ routes, route.1.WellFormed)
    (hmax : ∀ route ∈ routes, route.1.names.length ≤ maxRouteParameters) :
    ∃ bound, ∀ passes, bound ≤ passes → ∀ m, TreeOf routes passes m →
      ∀ headerWritten root method path x,
      ∃ m', TreeOf routes passes m' ∧ handleRequest headerWritten m passes root method path x =
        .ok (m', serve headerWritten routes root method path x) := by
  obtain ⟨tree, hdate, hentry, ⟨bound, hbuilt⟩, hmatch⟩ := tree_offers routes hwf hmax
  refine ⟨bound, fun passes hp m hm headerWritten root method path x => ?_⟩
  -- a match always uses the same tree
  have hvisit : ∀ {m}, TreeOf routes passes m → ∀ method path x,
      m.matchText passes path (callRoute headerWritten method) x =
        .ok (tree, visit headerWritten method path routes x) := by
    intro m hm method path x
    have htree : m.update passes = .ok tree := by
      rw [MatchTree.update]
      rcases hm with rfl | ⟨hm, hsame⟩
      · rw [upToDate_register, if_neg (by simp), hbuilt passes hp]
      · rw [if_pos hm, ← hsame, hbuilt passes hp]
    rw [MatchTree.matchText, htree, ok_bind, hmatch, ok_bind, candidates,
      offer_candidates headerWritten method path routes]
    · rfl
    · intro j route hj
      rw [Nat.zero_add, hentry, hj]
      rfl
  have htree : TreeOf routes passes tree := .inr ⟨hdate, hbuilt passes hp⟩
  have hroot : (path.length < root.length ∨ path.take root.length ≠ root) ↔ ¬ root <+: path := by
    rw [List.prefix_iff_eq_take]
    constructor
    · rintro (h | h) heq
      · have := congrArg List.length heq
        rw [List.length_take] at this
        omega
      · exact h heq.symm
    · exact fun h => .inr (Ne.symm h)
  rw [handleRequest, serve]
  by_cases h : root <+: path
  · refine ⟨tree, htree, ?_⟩
    rw [if_neg (by rw [hroot]; exact not_not_intro h), if_pos h]
    dsimp only
    rw [hvisit hm, ok_bind]
    rcases visit headerWritten method (path.drop root.length) routes x with ⟨done, x'⟩
    cases done with
    | true => rfl
    | false =>
      by_cases hhead : method = .HEAD
      · simp only [Bool.false_eq_true, if_false, if_pos hhead, hvisit htree, ok_bind]
        rfl
      · simp only [Bool.false_eq_true, if_false, if_neg hhead]
        rfl
  · exact ⟨m, hm, by rw [if_pos (hroot.mpr h), if_neg h]⟩

/-- A router answers every sequence of requests as if it tried its routes one by one,
whenever its tree is built. -/
theorem handleRequests_sequential (routes : List (Pattern × Route σ))
    (hwf : ∀ route ∈ routes, route.1.WellFormed)
    (hmax : ∀ route ∈ routes, route.1.names.length ≤ maxRouteParameters) :
    ∃ bound, ∀ passes, bound ≤ passes → ∀ headerWritten root respond requests s,
      ∃ m, handleRequests headerWritten passes root respond (register routes, s) requests =
        .ok (m, requests.foldl (fun s q =>
          (serve headerWritten routes root q.1 q.2 ⟨fun _ => none, respond s⟩).res) s) := by
  obtain ⟨bound, hstep⟩ := handleRequest_eq routes hwf hmax
  refine ⟨bound, fun passes hp headerWritten root respond requests s => ?_⟩
  obtain ⟨⟨m, t⟩, hrun, -, rfl⟩ := foldlM_simulates
    (fun (state : MatchTree (Route σ) × σ) t => TreeOf routes passes state.1 ∧ state.2 = t)
    (fun state q => do
      let (m, x) ← handleRequest headerWritten state.1 passes root q.1 q.2
        ⟨fun _ => none, respond state.2⟩
      return (m, x.res))
    (fun s q => (serve headerWritten routes root q.1 q.2 ⟨fun _ => none, respond s⟩).res) requests
      (register routes, s) s
    (by
      rintro q - ⟨m, s⟩ _ ⟨hm, rfl⟩
      obtain ⟨m', hm', hreq⟩ :=
        hstep passes hp m hm headerWritten root q.1 q.2 ⟨fun _ => none, respond s⟩
      exact ⟨_, by simp only [hreq, ok_bind]; rfl, hm', rfl⟩)
    ⟨.inl rfl, rfl⟩
  exact ⟨m, hrun⟩

/-- A router that counts the requests for `a` followed by a value. -/
theorem handleRequests_sequential_counter :
    ∃ bound, ∀ passes, bound ≤ passes → ∀ headerWritten root respond requests s,
    ∃ m, handleRequests headerWritten passes root respond
        (register [(⟨.none, [(97, .var [118])]⟩, (⟨.GET, fun _ n => n + 1⟩ : Route ℕ))], s)
        requests =
      .ok (m, requests.foldl (fun s q =>
        (serve headerWritten [(⟨.none, [(97, .var [118])]⟩, ⟨.GET, fun _ n => n + 1⟩)]
        root q.1 q.2 ⟨fun _ => none, respond s⟩).res) s) :=
  handleRequests_sequential _ (by decide) (by decide)

end Owlchain.Vibe
