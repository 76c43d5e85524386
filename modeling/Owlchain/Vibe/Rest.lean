import Mathlib.Data.List.TakeWhile
import Owlchain.Vibe.Router

/-! The arguments of a REST function. The client puts each argument into the path in the place
of its parameter, URL encoded. The server decodes the path, the router cuts the arguments
out of it, and the handler of the function decodes each of them once more. -/

namespace Owlchain.Vibe

open Owlchain.Library Loop

def hash : UInt8 := '#'.toUInt8

def question : UInt8 := '?'.toUInt8

/-! ### The two sides -/

/-- What the client puts in the place of a gap, and the arguments that are left. A parameter
that the function does not have stays as it is. -/
def Gap.text (write : Bytes → Bytes) : Gap → List Bytes → Bytes × List Bytes
  | .none, args => ([], args)
  | .var name, [] => (colon :: name, [])
  | .var _, arg :: args => (write arg, args)
  | .rest, args => ([star], args)

/-- The parts of a path, one after the other. -/
def buildPath (write : Bytes → Bytes) : Gap → List (UInt8 × Gap) → List Bytes → Bytes
  | k, [], args => (k.text write args).1
  | k, (c, k') :: cells, args =>
    (k.text write args).1 ++ c :: buildPath write k' cells (k.text write args).2

/-- An argument as part of a URL. -/
def writeArgument (arg : Bytes) : Bytes := urlEncode arg []

/-- The URL of `executeClientMethod`. -/
def clientURL (p : Pattern) (args : List Bytes) : Bytes :=
  buildPath writeArgument p.first p.cells args

/-- `URL.parse(requestURL).pathString`, for a request URL that starts with a slash. -/
def pathString (requestURL : Bytes) : Result Bytes :=
  let str := requestURL.takeWhile (· ≠ hash)
  let str := str.takeWhile (· ≠ question)
  if isURLEncoded [] str then .ok str else .error .enforce

/-- `req.path`. -/
def requestPath (requestURL : Bytes) : Result Bytes := do
  urlDecode (← pathString requestURL)

/-- The parameters of the handler of a function; a missing one is a bad request. -/
def restArguments (params : Params) (names : List Bytes) : Result (List Bytes) :=
  names.mapM fun name =>
    match params name with
    | some pv => urlDecode pv
    | none => .error .enforce

/-- The arguments with which the handler of a route is called, if the route matches. -/
def received (p : Pattern) (requestURL : Bytes) : Result (Option (List Bytes)) := do
  let path ← requestPath requestURL
  match p.values path with
  | none => return none
  | some values => return some (← restArguments (setParams (fun _ => none) p.names values) p.names)

/-! ### The parameters of a route -/

theorem setParams_of_notMem {name : Bytes} (names values : List Bytes) :
    ∀ params : Params, name ∉ names → setParams params names values name = params name := by
  induction names generalizing values with
  | nil => exact fun _ _ => rfl
  | cons n names ih =>
    intro params hn
    rw [List.mem_cons, not_or] at hn
    cases values with
    | nil => rfl
    | cons v values =>
      exact (ih values (Function.update params n (some v)) hn.2).trans
        (Function.update_of_ne hn.1 ..)

/-- The handler finds each value under the name of its placeholder. -/
theorem restArguments_setParams (names values : List Bytes) :
    ∀ params : Params, names.Nodup → values.length = names.length →
      restArguments (setParams params names values) names = values.mapM urlDecode := by
  induction names generalizing values with
  | nil =>
    intro params _ hlen
    rw [List.length_eq_zero_iff.mp hlen]
    rfl
  | cons n names ih =>
    intro params hnodup hlen
    obtain ⟨hn, hrest⟩ := List.nodup_cons.mp hnodup
    obtain ⟨v, values, rfl⟩ := List.exists_cons_of_length_eq_add_one hlen
    have hfirst : setParams params (n :: names) (v :: values) n = some v :=
      (setParams_of_notMem names values (Function.update params n (some v)) hn).trans
        (Function.update_self ..)
    have hothers := ih values (Function.update params n (some v)) hrest (Nat.succ.inj hlen)
    rw [restArguments, List.mapM_cons, hfirst, List.mapM_cons]
    exact congrArg (fun x => urlDecode v >>= fun a => x >>= fun as => pure (a :: as)) hothers

/-! ### The path on its way -/

/-- A pattern of placeholders and characters that have no meaning in a URL. -/
def PlainFrom (k : Gap) (cells : List (UInt8 × Gap)) : Prop :=
  k ≠ .rest ∧ ∀ cell ∈ cells, cell.2 ≠ .rest ∧ cell.1 ≠ percent ∧ cell.1 ≠ hash ∧ cell.1 ≠ question

instance (k : Gap) (cells : List (UInt8 × Gap)) : Decidable (PlainFrom k cells) :=
  inferInstanceAs (Decidable (k ≠ .rest ∧
    ∀ cell ∈ cells, cell.2 ≠ .rest ∧ cell.1 ≠ percent ∧ cell.1 ≠ hash ∧ cell.1 ≠ question))

theorem PlainFrom.tail {k k' : Gap} {c : UInt8} {cells : List (UInt8 × Gap)}
    (h : PlainFrom k ((c, k') :: cells)) :
    PlainFrom k' cells :=
  ⟨(h.2 _ List.mem_cons_self).1, fun cell hcell => h.2 cell (List.mem_cons_of_mem _ hcell)⟩

/-- A gap takes up the text of the argument `v`, or the empty text if it has no argument. -/
theorem Gap.text_eq {k : Gap} (hk : k ≠ .rest) (args : List Bytes)
    (hlen : k.names.length ≤ args.length) :
    ∃ v args', k.value v ++ args' = args ∧ (k.value v = [] → v = []) ∧
      ∀ write : Bytes → Bytes, write [] = [] → k.text write args = (write v, args') := by
  cases k with
  | none => exact ⟨[], args, rfl, fun _ => rfl, fun write hwrite => by rw [hwrite]; rfl⟩
  | rest => exact absurd rfl hk
  | var name =>
    obtain ⟨v, args', rfl⟩ := List.exists_cons_of_length_pos hlen
    exact ⟨v, args', rfl, (fun h => nomatch h), fun write _ => rfl⟩

theorem writeArgument_nil : writeArgument [] = [] := rfl

/-- One step along the path: the text of the gap, the character and the rest. -/
theorem buildPath_cons {k k' : Gap} {c : UInt8} {cells : List (UInt8 × Gap)}
    (hplain : PlainFrom k ((c, k') :: cells)) {args : List Bytes}
    (hlen : args.length = (namesFrom k ((c, k') :: cells)).length) :
    ∃ v args', k.value v ++ args' = args ∧ (k.value v = [] → v = []) ∧
      args'.length = (namesFrom k' cells).length ∧
      ∀ write : Bytes → Bytes, write [] = [] →
        buildPath write k ((c, k') :: cells) args =
          write v ++ c :: buildPath write k' cells args' := by
  have hsum : args.length = k.names.length + (namesFrom k' cells).length := by
    rw [hlen, namesFrom, List.flatMap_cons, List.length_append]
    rfl
  obtain ⟨v, args', hargs, hv, htext⟩ := k.text_eq hplain.1 args (by omega)
  refine ⟨v, args', hargs, hv, ?_, fun write hwrite => by rw [buildPath, htext write hwrite]⟩
  have := congrArg List.length hargs
  rw [List.length_append, k.length_value] at this
  omega

theorem buildPath_nil {k : Gap} (hplain : PlainFrom k []) {args : List Bytes}
    (hlen : args.length = (namesFrom k []).length) :
    ∃ v, k.value v = args ∧ (k.value v = [] → v = []) ∧
      ∀ write : Bytes → Bytes, write [] = [] → buildPath write k [] args = write v := by
  have hsum : args.length = k.names.length := by
    rw [hlen, namesFrom, List.flatMap_nil, List.append_nil]
  obtain ⟨v, args', hargs, hv, htext⟩ := k.text_eq hplain.1 args (by omega)
  have := congrArg List.length hargs
  rw [List.length_append, k.length_value] at this
  obtain rfl := List.length_eq_zero_iff.mp (by omega : args'.length = 0)
  exact ⟨v, by rwa [List.append_nil] at hargs, hv,
    fun write hwrite => by rw [buildPath, htext write hwrite]⟩

/-- The bytes that `urlEncode` can write. -/
theorem mem_urlEncode {str : Bytes} {x : UInt8} (h : x ∈ urlEncode str []) :
    x ≠ hash ∧ x ≠ question := by
  have hhex : ∀ n < 16, upperHex n ≠ hash ∧ upperHex n ≠ question := by decide
  have hun : isUnreserved hash = false ∧ isUnreserved question = false := by decide
  rw [urlEncode_eq, filterURLEncode] at h
  obtain ⟨c, -, hc⟩ := List.mem_flatMap.mp h
  rw [encodeByte, if_neg (by simp), if_neg (List.not_mem_nil)] at hc
  split_ifs at hc with hunreserved
  · rw [List.mem_singleton.mp hc]
    refine ⟨?_, ?_⟩
    · rintro rfl
      rw [hun.1] at hunreserved
      cases hunreserved
    · rintro rfl
      rw [hun.2] at hunreserved
      cases hunreserved
  · have hlt := c.toNat_lt
    simp only [List.mem_cons, List.not_mem_nil, or_false] at hc
    rcases hc with rfl | rfl | rfl
    · decide
    · exact hhex _ (by omega)
    · exact hhex _ (Nat.mod_lt _ (by decide))

/-- The URL has neither a query nor an anchor. -/
theorem mem_buildPath {cells : List (UInt8 × Gap)} {x : UInt8} :
    ∀ {k : Gap} {args : List Bytes}, PlainFrom k cells → args.length = (namesFrom k cells).length →
      x ∈ buildPath writeArgument k cells args → x ≠ hash ∧ x ≠ question := by
  induction cells with
  | nil =>
    intro k args hplain hlen hx
    obtain ⟨v, -, -, hbuild⟩ := buildPath_nil hplain hlen
    rw [hbuild _ writeArgument_nil] at hx
    exact mem_urlEncode hx
  | cons cell cells ih =>
    intro k args hplain hlen hx
    obtain ⟨c, k'⟩ := cell
    obtain ⟨v, args', -, -, hlen', hbuild⟩ := buildPath_cons hplain hlen
    rw [hbuild _ writeArgument_nil, List.mem_append, List.mem_cons] at hx
    rcases hx with hx | rfl | hx
    · exact mem_urlEncode hx
    · exact (hplain.2 _ List.mem_cons_self).2.2
    · exact ih hplain.tail hlen' hx

/-- Decoding the path puts in the arguments themselves. -/
theorem filterURLDecode_buildPath {cells : List (UInt8 × Gap)} :
    ∀ {k : Gap} {args : List Bytes}, PlainFrom k cells → args.length = (namesFrom k cells).length →
      filterURLDecode false (buildPath writeArgument k cells args) =
        .ok (buildPath id k cells args) := by
  induction cells with
  | nil =>
    intro k args hplain hlen
    obtain ⟨v, -, -, hbuild⟩ := buildPath_nil hplain hlen
    rw [hbuild _ writeArgument_nil, hbuild id rfl, writeArgument, urlEncode_eq]
    exact filterURLDecode_filterURLEncode List.not_mem_nil (by simp) v
  | cons cell cells ih =>
    intro k args hplain hlen
    obtain ⟨c, k'⟩ := cell
    obtain ⟨v, args', -, -, hlen', hbuild⟩ := buildPath_cons hplain hlen
    rw [hbuild _ writeArgument_nil, hbuild id rfl, writeArgument, urlEncode_eq,
      filterURLDecode_append List.not_mem_nil (by simp),
      filterURLDecode_of_ne (hplain.2 _ List.mem_cons_self).2.1 (by simp), ih hplain.tail hlen']
    rfl

theorem requestPath_clientURL {p : Pattern} (hplain : PlainFrom p.first p.cells) {args : List Bytes}
    (hlen : args.length = p.names.length) :
    requestPath (clientURL p args) = .ok (buildPath id p.first p.cells args) := by
  have hdecode := filterURLDecode_buildPath hplain hlen
  have hmem := fun x hx => mem_buildPath (x := x) hplain hlen hx
  have hhash : (clientURL p args).takeWhile (· ≠ hash) = clientURL p args :=
    List.takeWhile_eq_self_iff.mpr fun x hx => by simpa using (hmem x hx).1
  have hquestion : (clientURL p args).takeWhile (· ≠ question) = clientURL p args :=
    List.takeWhile_eq_self_iff.mpr fun x hx => by simpa using (hmem x hx).2
  have hencoded : isURLEncoded [] (clientURL p args) = true :=
    (isURLEncoded_iff _).mpr ⟨_, (urlDecode_eq _).trans hdecode⟩
  rw [requestPath, pathString, hhash, hquestion, if_pos hencoded, ok_bind, urlDecode_eq]
  exact hdecode

/-! ### Which arguments arrive -/

/-- The path with the arguments put in is an instance of the pattern, if they fit in. -/
theorem instance_buildPath {cells : List (UInt8 × Gap)} :
    ∀ {k : Gap} {args : List Bytes}, PlainFrom k cells → args.length = (namesFrom k cells).length →
      (∀ arg ∈ args, slash ∉ arg ∧ terminalChar ∉ arg) →
        Instance k cells args (buildPath id k cells args) := by
  have htakes : ∀ {k : Gap} {v : Bytes}, k ≠ .rest → (k.value v = [] → v = []) →
      (∀ arg ∈ k.value v, slash ∉ arg ∧ terminalChar ∉ arg) → ∀ x ∈ v, k.takes x = true := by
    intro k v hk hv hfit x hx
    cases k with
    | none => rw [hv rfl] at hx; cases hx
    | rest => exact absurd rfl hk
    | var name =>
      obtain ⟨hslash, hterminal⟩ := hfit v (List.mem_singleton_self v)
      simp only [Gap.takes, decide_eq_true_iff]
      exact ⟨fun h => hterminal (h ▸ hx), fun h => hslash (h ▸ hx)⟩
  induction cells with
  | nil =>
    intro k args hplain hlen hfit
    obtain ⟨v, rfl, hv, hbuild⟩ := buildPath_nil hplain hlen
    rw [hbuild id rfl]
    exact .last (htakes hplain.1 hv hfit)
  | cons cell cells ih =>
    intro k args hplain hlen hfit
    obtain ⟨c, k'⟩ := cell
    obtain ⟨v, args', rfl, hv, hlen', hbuild⟩ := buildPath_cons hplain hlen
    rw [hbuild id rfl]
    exact .cell (htakes hplain.1 hv fun arg harg => hfit arg (List.mem_append_left _ harg))
      (ih hplain.tail hlen' fun arg harg => hfit arg (List.mem_append_right _ harg))

/-- An instance has no slashes but those of the pattern, and no terminal character. -/
theorem Instance.count_slash {k : Gap} {cells : List (UInt8 × Gap)} {vals : List Bytes}
    {text : Bytes} (h : Instance k cells vals text) (hplain : PlainFrom k cells)
    (hfit : CellsFit k cells) :
    text.count slash = (cells.map Prod.fst).count slash ∧ terminalChar ∉ text := by
  have htakes : ∀ {k : Gap} {v : Bytes}, k ≠ .rest → (∀ x ∈ v, k.takes x = true) → slash ∉ v ∧
      terminalChar ∉ v := by
    intro k v hk hv
    cases k with
    | none => exact ⟨(fun hmem => nomatch hv _ hmem), (fun hmem => nomatch hv _ hmem)⟩
    | rest => exact absurd rfl hk
    | var name => exact ⟨fun hmem => by simpa [Gap.takes] using hv _ hmem,
        fun hmem => by simpa [Gap.takes] using hv _ hmem⟩
  induction h with
  | last hv =>
    obtain ⟨hslash, hterminal⟩ := htakes hplain.1 hv
    exact ⟨List.count_eq_zero.mpr hslash, hterminal⟩
  | @cell k k' c cells v text vals hv h ih =>
    obtain ⟨hslash, hterminal⟩ := htakes hplain.1 hv
    obtain ⟨-, -, -, hc, hrest⟩ := hfit
    obtain ⟨hcount, hnone⟩ := ih hplain.tail hrest
    constructor
    · rw [List.count_append, List.count_eq_zero.mpr hslash, Nat.zero_add, List.map_cons,
        List.count_cons, List.count_cons, hcount]
    · rw [List.mem_append, List.mem_cons]
      exact fun hmem => hmem.elim hterminal fun hmem => hmem.elim (fun heq => hc heq.symm) hnone

theorem count_buildPath {cells : List (UInt8 × Gap)} (x : UInt8) :
    ∀ {k : Gap} {args : List Bytes}, PlainFrom k cells → args.length = (namesFrom k cells).length →
      (buildPath id k cells args).count x =
        (cells.map Prod.fst).count x + args.flatten.count x := by
  have hvalue : ∀ {k : Gap} {v : Bytes}, k ≠ .rest → (k.value v = [] → v = []) →
      (k.value v).flatten = v := by
    intro k v hk hv
    cases k with
    | none => exact (hv rfl).symm
    | rest => exact absurd rfl hk
    | var name => simp [Gap.value]
  induction cells with
  | nil =>
    intro k args hplain hlen
    obtain ⟨v, rfl, hv, hbuild⟩ := buildPath_nil hplain hlen
    rw [hbuild id rfl, hvalue hplain.1 hv]
    simp
  | cons cell cells ih =>
    intro k args hplain hlen
    obtain ⟨c, k'⟩ := cell
    obtain ⟨v, args', rfl, hv, hlen', hbuild⟩ := buildPath_cons hplain hlen
    rw [hbuild id rfl, List.flatten_append, hvalue hplain.1 hv, id, List.count_append,
      List.count_append, List.count_cons, ih hplain.tail hlen', List.map_cons, List.count_cons]
    dsimp only
    omega

/-- The router cuts out the arguments exactly if they are not empty and have neither a slash
nor a terminal character; otherwise the route does not match. -/
theorem values_buildPath {p : Pattern} (hp : p.WellFormed) (hplain : PlainFrom p.first p.cells)
    {args : List Bytes} (hlen : args.length = p.names.length) :
    p.values (buildPath id p.first p.cells args) =
      if ∀ arg ∈ args, arg ≠ [] ∧ slash ∉ arg ∧ terminalChar ∉ arg then some args else none := by
  split_ifs with hfit
  · refine (values_eq_some_iff hp).mpr
      ⟨instance_buildPath hplain hlen fun arg harg => (hfit arg harg).2, fun hmem => ?_⟩
    exact (hfit [] hmem).1 rfl
  · refine Option.eq_none_iff_forall_ne_some.mpr fun vals hvals => hfit ?_
    obtain ⟨hinstance, hne⟩ := (values_eq_some_iff hp).mp hvals
    obtain ⟨hcount, hnone⟩ := hinstance.count_slash hplain hp.fits
    rw [count_buildPath slash hplain hlen] at hcount
    have hslash : slash ∉ args.flatten := List.count_eq_zero.mp (by omega)
    have hterminal : terminalChar ∉ args.flatten := by
      rw [← List.count_eq_zero] at hnone ⊢
      rw [count_buildPath terminalChar hplain hlen] at hnone
      omega
    have hchars : ∀ arg ∈ args, slash ∉ arg ∧ terminalChar ∉ arg := fun arg harg =>
      ⟨fun hmem => hslash (List.mem_flatten.mpr ⟨arg, harg, hmem⟩),
        fun hmem => hterminal (List.mem_flatten.mpr ⟨arg, harg, hmem⟩)⟩
    -- the values are the arguments, which have no empty text among them
    have hargs := (instance_buildPath hplain hlen hchars).fill_eq hp.fits
    obtain rfl := Option.some.inj (hargs.symm.trans (hinstance.fill_eq hp.fits))
    exact fun arg harg => ⟨fun h => hne (h ▸ harg), hchars arg harg⟩

theorem mapM_urlDecode_eq_self_iff (values : List Bytes) :
    values.mapM urlDecode = .ok values ↔ ∀ v ∈ values, percent ∉ v := by
  induction values with
  | nil => simp [pure, Except.pure]
  | cons v values ih =>
    rw [List.mapM_cons, List.forall_mem_cons, ← urlDecode_eq_self_iff, ← ih]
    cases urlDecode v with
    | error e => simp
    | ok w =>
      cases values.mapM urlDecode with
      | error e => simp
      | ok ws => simp [pure, Except.pure]

/-- The handler gets the arguments of the client exactly if none of them is empty or has a
slash, a terminal character or a percent sign. -/
theorem received_clientURL_iff {p : Pattern} (hp : p.WellFormed)
    (hplain : PlainFrom p.first p.cells) {args : List Bytes} (hlen : args.length = p.names.length) :
    received p (clientURL p args) = .ok (some args) ↔
      ∀ arg ∈ args, arg ≠ [] ∧ slash ∉ arg ∧ terminalChar ∉ arg ∧ percent ∉ arg := by
  have hsplit : (∀ arg ∈ args, arg ≠ [] ∧ slash ∉ arg ∧ terminalChar ∉ arg ∧ percent ∉ arg) ↔
      (∀ arg ∈ args, arg ≠ [] ∧ slash ∉ arg ∧ terminalChar ∉ arg) ∧
        ∀ arg ∈ args, percent ∉ arg := by
    constructor
    · exact fun h => ⟨fun arg harg => ⟨(h arg harg).1, (h arg harg).2.1, (h arg harg).2.2.1⟩,
        fun arg harg => (h arg harg).2.2.2⟩
    · exact fun h arg harg => ⟨(h.1 arg harg).1, (h.1 arg harg).2.1, (h.1 arg harg).2.2,
        h.2 arg harg⟩
  rw [received, requestPath_clientURL hplain hlen, ok_bind, values_buildPath hp hplain hlen, hsplit]
  by_cases hfit : ∀ arg ∈ args, arg ≠ [] ∧ slash ∉ arg ∧ terminalChar ∉ arg
  · rw [if_pos hfit, ← mapM_urlDecode_eq_self_iff]
    dsimp only
    rw [restArguments_setParams _ _ _ hp.names hlen]
    cases args.mapM urlDecode with
    | error e => simp
    | ok values => simpa [pure, Except.pure] using fun _ => hfit
  · rw [if_neg hfit]
    simp [hfit, pure, Except.pure]

/-- The argument `a b` of the route `/:v` arrives, although it has to be encoded. -/
theorem received_clientURL_blank :
    received ⟨.none, [(47, .var [118])]⟩ (clientURL ⟨.none, [(47, .var [118])]⟩ [[97, 32, 98]]) =
      .ok (some [[97, 32, 98]]) := by
  refine (received_clientURL_iff ?_ ?_ ?_).mpr ?_
  all_goals decide

end Owlchain.Vibe
