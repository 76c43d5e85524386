import Owlchain.Ui.Registry
import Owlchain.Vibe.Rest

/-! The routes of the web server, from a URL to the call of an API function. The routes for the
start page, the socket and the static files come before those of the API. A client that
calls an API function sends a URL with the encoded arguments. The function is called with
them unless one of them is empty or contains a slash, a zero byte or a percent sign, so a
run of such calls over HTTP is a run of the registry. -/

namespace Owlchain.Ui

open Owlchain.Crypto Owlchain.Library Owlchain.Vibe Loop

/-! ### The table -/

/-- The functions of `IBlockchainREST`. -/
inductive Api where
  | sendBos
  | getAccount
  | getAccountTransaction
  | createSeed
  | confirmSeed
  | getBlockInformation
  | setFreezing
  | createAccount
  | validateTrustContract
  | confirmedTrustContract
  | runTrustContract
  | reqTrustContractList
  deriving DecidableEq

/-- In the order in which they are registered. -/
def apis : List Api :=
  [.sendBos, .getAccount, .getAccountTransaction, .createSeed, .confirmSeed, .getBlockInformation,
    .setFreezing, .createAccount, .validateTrustContract, .confirmedTrustContract,
    .runTrustContract, .reqTrustContractList]

/-- The `path` attribute of a function. -/
def Api.path : Api → String
  | .sendBos =>
    "/blockchain/transactions/sendTransaction/:type/:senderAccountAddress/:receiverAccountAddress/:amount/:fee"
  | .getAccount => "/blockchain/AccountOperations/getAccount/:accountAddress"
  | .getAccountTransaction => "/blockchain/AccountOperations/getAccountTransaction/:accountAddress"
  | .createSeed => "/blockchain/AccountOperations/createSeed"
  | .confirmSeed => "/blockchain/AccountOperations/confirmSeed/:passphrase"
  | .getBlockInformation => "/blockchain/AccountOperations/getBlockInformation"
  | .setFreezing =>
    "/blockchain/FreezingOperations/setFreezing/:accountAddress/:freezingStatus/:freezingAmount"
  | .createAccount => "/blockchain/AccountOperations/createAccount"
  | .validateTrustContract => "/blockchain/trustcontract/validateTrustContract/:contents"
  | .confirmedTrustContract =>
    "/blockchain/trustcontract/confirmedTrustContract/:contractAddress/:title"
  | .runTrustContract => "/blockchain/trustcontract/runTrustContract/:contractAddress/:contents"
  | .reqTrustContractList => "/blockchain/trustcontract/reqTrustContractList"

def ascii (s : String) : Bytes := s.toList.map Char.toUInt8

/-- A text with a gap behind its last character. -/
def segment (s : String) (k : Gap) : List (UInt8 × Gap) :=
  (ascii s).dropLast.map (·, .none) ++ (ascii s).getLast?.toList.map (·, k)

/-- A text followed by parameters, with slashes between them. -/
def apiPattern (s : String) : List String → Pattern
  | [] => ⟨.none, segment s .none⟩
  | name :: names =>
    ⟨.none, segment s (.var (ascii name)) ++ names.map fun name => (slash, .var (ascii name))⟩

def Api.pattern : Api → Pattern
  | .sendBos => apiPattern "/blockchain/transactions/sendTransaction/"
      ["type", "senderAccountAddress", "receiverAccountAddress", "amount", "fee"]
  | .getAccount => apiPattern "/blockchain/AccountOperations/getAccount/" ["accountAddress"]
  | .getAccountTransaction =>
    apiPattern "/blockchain/AccountOperations/getAccountTransaction/" ["accountAddress"]
  | .createSeed => apiPattern "/blockchain/AccountOperations/createSeed" []
  | .confirmSeed => apiPattern "/blockchain/AccountOperations/confirmSeed/" ["passphrase"]
  | .getBlockInformation => apiPattern "/blockchain/AccountOperations/getBlockInformation" []
  | .setFreezing => apiPattern "/blockchain/FreezingOperations/setFreezing/"
      ["accountAddress", "freezingStatus", "freezingAmount"]
  | .createAccount => apiPattern "/blockchain/AccountOperations/createAccount" []
  | .validateTrustContract =>
    apiPattern "/blockchain/trustcontract/validateTrustContract/" ["contents"]
  | .confirmedTrustContract =>
    apiPattern "/blockchain/trustcontract/confirmedTrustContract/" ["contractAddress", "title"]
  | .runTrustContract =>
    apiPattern "/blockchain/trustcontract/runTrustContract/" ["contractAddress", "contents"]
  | .reqTrustContractList => apiPattern "/blockchain/trustcontract/reqTrustContractList" []

/-- What the server does for its routes: `call` runs an API function and answers with its
result, `fail` answers with an error. -/
structure Site (σ : Type) where
  staticRedirect : Params → σ → σ
  handleWebSockets : Params → σ → σ
  serveStaticFiles : Params → σ → σ
  call : Api → List Bytes → σ → σ
  fail : Fault → σ → σ

variable {σ : Type}

/-- The handler that `registerRestInterface` makes for a function. -/
def Site.handler (site : Site σ) (api : Api) (params : Params) (s : σ) : σ :=
  match restArguments params api.pattern.names with
  | .ok args => site.call api args s
  | .error e => site.fail e s

def Site.routes (site : Site σ) : List (Pattern × Route σ) :=
  [(⟨.none, segment "/" .none⟩, ⟨.GET, site.staticRedirect⟩),
    (⟨.none, segment "/ws" .none⟩, ⟨.GET, site.handleWebSockets⟩),
    (⟨.rest, []⟩, ⟨.GET, site.serveStaticFiles⟩)] ++
    apis.map fun api => (api.pattern, ⟨.GET, site.handler api⟩)

/-- A GET request; each has a response of its own. -/
def answer (headerWritten : σ → Bool) (passes : ℕ) (respond : σ → σ)
    (state : MatchTree (Route σ) × σ) (requestURL : Bytes) :
    Result (MatchTree (Route σ) × σ) := do
  let path ← requestPath requestURL
  let (m, x) ← handleRequest headerWritten state.1 passes [] .GET path
    ⟨fun _ => none, respond state.2⟩
  return (m, x.res)

section Visit
variable (site : Site σ) (headerWritten : σ → Bool) {path : Bytes}

end Visit

section Calls
variable (site : Site σ) (headerWritten : σ → Bool) (respond : σ → σ)
  (hfiles : ∀ params s, site.serveStaticFiles params (respond s) = respond s)
    (hopen : ∀ s, headerWritten (respond s) = false)
include hfiles hopen

end Calls

def utf8 (t : Text) : Bytes := t.flatMap String.utf8EncodeChar

theorem utf8_eq_nil {t : Text} (h : utf8 t = []) : t = [] := by
  cases t with
  | nil => rfl
  | cons c t =>
    rw [utf8, List.flatMap_cons] at h
    exact absurd (List.append_eq_nil_iff.mp h).1 String.utf8EncodeChar_ne_nil

/-- The bytes of a character are itself or above the ASCII range. -/
theorem utf8EncodeChar_ascii (d : Char) :
    (d.val.toNat ≤ 127 ∧ String.utf8EncodeChar d = [UInt8.ofNat d.val.toNat]) ∨
    ∀ x ∈ String.utf8EncodeChar d, 128 ≤ x.toNat := by
  have hbyte : ∀ m k n, 128 ≤ n → k + n ≤ 256 → 0 < k → 128 ≤ (UInt8.ofNat (m % k + n)).toNat := by
    intro m k n hn hsum hk
    have := Nat.mod_lt m hk
    rw [UInt8.toNat_ofNat']
    omega
  rw [String.utf8EncodeChar]
  split_ifs with h1 h2 h3
  · exact .inl ⟨h1, rfl⟩
  all_goals
    refine .inr ?_
    simp only [List.mem_cons, List.not_mem_nil, or_false, forall_eq_or_imp, forall_eq]
    and_intros
  all_goals exact hbyte _ _ _ (by decide) (by decide) (by decide)

theorem mem_utf8 {t : Text} {c : Char} (hc : c.val.toNat ≤ 127)
    (h : UInt8.ofNat c.val.toNat ∈ utf8 t) : c ∈ t := by
  obtain ⟨d, hd, hmem⟩ := List.mem_flatMap.mp h
  have hbyte : (UInt8.ofNat c.val.toNat).toNat = c.val.toNat := by
    rw [UInt8.toNat_ofNat']
    omega
  rcases utf8EncodeChar_ascii d with ⟨hascii, hd'⟩ | habove
  · rw [hd', List.mem_singleton] at hmem
    have heq := congrArg UInt8.toNat hmem
    rw [hbyte, UInt8.toNat_ofNat', Nat.mod_eq_of_lt (by omega)] at heq
    rwa [Char.ext (UInt32.toNat_inj.mp heq)]
  · have := habove _ hmem
    omega

/-! ### The registry behind the routes -/

/-- The registry of the server, the draws of the validations still to come and whether the
current request has been answered. -/
structure RegistryServer where
  session : Option Session
  draws : List (List Draw)
  headerWritten : Bool

/-- A request with a response of its own. -/
def RegistryServer.respond (s : RegistryServer) : RegistryServer :=
  { s with headerWritten := false }

def RegistryServer.take (s : RegistryServer) (q : Request) : RegistryServer :=
  { s with session := s.session.bind (·.step q), headerWritten := true }

/-- The other functions do not use the registry. -/
def RegistryServer.call (s : RegistryServer) : Api → List Text → RegistryServer
  | .validateTrustContract, [contents] =>
    { s.take (.validateTrustContract contents (s.draws.headD [])) with draws := s.draws.tail }
  | .confirmedTrustContract, [contractAddress, title] =>
    s.take (.confirmedTrustContract contractAddress title)
  | .runTrustContract, [contractAddress, contents] =>
    s.take (.runTrustContract contractAddress contents)
  | .reqTrustContractList, [] => s.take .reqTrustContractList
  | _, _ => { s with headerWritten := true }

/-- The call that makes a request. -/
def Request.api : Request → Api × List Text
  | .validateTrustContract contents _ => (.validateTrustContract, [contents])
  | .confirmedTrustContract contractAddress title =>
    (.confirmedTrustContract, [contractAddress, title])
  | .runTrustContract contractAddress contents => (.runTrustContract, [contractAddress, contents])
  | .reqTrustContractList => (.reqTrustContractList, [])

def Request.draws : Request → List (List Draw)
  | .validateTrustContract _ draws => [draws]
  | _ => []

/-- The texts of a request that keep their meaning in a URL. -/
def Request.Plain (q : Request) : Prop := ∀ t ∈ q.api.2, t ≠ [] ∧ '/' ∉ t ∧ '\x00' ∉ t ∧ '%' ∉ t

instance : DecidablePred Request.Plain := fun q =>
  inferInstanceAs (Decidable (∀ t ∈ q.api.2, t ≠ [] ∧ '/' ∉ t ∧ '\x00' ∉ t ∧ '%' ∉ t))

/-- The bytes of such texts arrive as they are. -/
theorem Request.Plain.bytes {q : Request} (h : q.Plain) : ∀ arg ∈ q.api.2.map utf8,
    (arg ≠ [] ∧ slash ∉ arg ∧ terminalChar ∉ arg) ∧ percent ∉ arg := by
  intro arg harg
  obtain ⟨t, ht, rfl⟩ := List.mem_map.mp harg
  obtain ⟨hne, hslash, hterminal, hpercent⟩ := h t ht
  exact ⟨⟨fun hnil => hne (utf8_eq_nil hnil), fun hmem => hslash (mem_utf8 (by decide) hmem),
    fun hmem => hterminal (mem_utf8 (by decide) hmem)⟩,
      fun hmem => hpercent (mem_utf8 (by decide) hmem)⟩

end Owlchain.Ui
