import Mathlib.Logic.Function.Basic
import Owlchain.Library.Search
import Owlchain.Ui.Broadcast

/-! The notification of a payment, from the server to the wallet page. The server writes
a record as JSON; the page does not parse it but deletes the braces and quotes and splits
at commas and colons. It finds a text again exactly if the text has none of these five
characters and nothing in it is escaped. The members of a JSON object are kept in an
associative array, so they are written in no particular order. -/

namespace Owlchain.Ui

open Owlchain.Crypto Owlchain.Library Search

def quote : Char := '\x22'

def backslash : Char := '\x5c'

def openBrace : Char := '\x7b'

def closeBrace : Char := '\x7d'

/-! ### The text that the server sends -/

/-- A digit of the format `%04X`. -/
def hexDigit (d : ℕ) : Char := "0123456789ABCDEF".toList.getD d '0'

def jsonEscapeChar (c : Char) : Text :=
  if c = backslash then [backslash, backslash]
  else if c = '\r' then [backslash, 'r']
  else if c = '\n' then [backslash, 'n']
  else if c = '\t' then [backslash, 't']
  else if c = quote then [backslash, quote]
  else if c.toNat < 32 then
    [backslash, 'u', '0', '0', hexDigit (c.toNat / 16), hexDigit (c.toNat % 16)]
  else [c]

def jsonEscape (s : Text) : Text := s.flatMap jsonEscapeChar

def jsonString (s : Text) : Text := quote :: (jsonEscape s ++ [quote])

/-- A member of an object, given its name and the text of its value. -/
def writeMember (m : Text × Text) : Text := quote :: (jsonEscape m.1 ++ quote :: ':' :: m.2)

/-- `writeJsonString` on an object. -/
def writeObject (members : List (Text × Text)) : Text :=
  openBrace :: ([','].intercalate (members.map writeMember) ++ [closeBrace])

/-- The members of a serialized record. How the amount is printed is left open. -/
def ReceiveBos.members (r : ReceiveBos) (amount : Text) : List (Text × Text) :=
  [("type".toList, jsonString r.type),
    ("receiverAccountAddress".toList, jsonString r.receiverAccountAddress),
    ("senderAccountAddress".toList, jsonString r.senderAccountAddress),
    ("amount".toList, amount)]

/-! ### What the page makes of it -/

/-- `.replace(_re, '')`. -/
def strip (s : Text) : Text := s.filter fun c => c ≠ openBrace ∧ c ≠ quote ∧ c ≠ closeBrace

/-- `_data[filter[0]] = filter[1]`, where `undefined` is `none`. -/
def assignPiece (data : Text → Option Text) (piece : Text) : Text → Option Text :=
  let filter := (strip piece).splitOn ':'
  Function.update data (filter.getD 0 []) filter[1]?

/-- The object `_data` that `$.COM.receiveBos` builds from a message. -/
def Wallet.receiveBos (message : Text) : Text → Option Text :=
  ((strip message).splitOn ',').foldl assignPiece fun _ => none

/-! ### Values have no separators -/

/-- The characters that the page deletes or splits at. -/
def separators : List Char := [openBrace, quote, closeBrace, ',', ':']

def Clean (t : Text) : Prop := ∀ c ∈ t, c ∉ separators

instance : DecidablePred Clean := fun t =>
  decidable_of_iff (t.all fun c => c ∉ separators) (by simp [Clean])

theorem mem_strip {s : Text} {c : Char} :
    c ∈ strip s ↔ c ∈ s ∧ c ≠ openBrace ∧ c ≠ quote ∧ c ≠ closeBrace := by
  simp [strip]

theorem clean_assignPiece {data : Text → Option Text} {piece : Text} (hcomma : ',' ∉ piece)
    (h : ∀ k v, data k = some v → Clean v) :
    ∀ k v, assignPiece data piece k = some v → Clean v := by
  intro k v hv
  rw [assignPiece, Function.update_apply] at hv
  split_ifs at hv with hk
  · intro c hc
    obtain ⟨hmem, hcolon⟩ := mem_piece (List.mem_of_getElem? hv) hc
    obtain ⟨hpiece, hopen, hquote, hclose⟩ := mem_strip.mp hmem
    have hne : c ≠ ',' := fun hc => hcomma (hc ▸ hpiece)
    simp [separators, hopen, hquote, hclose, hne, hcolon]
  · exact h k v hv

/-- Whatever the message, no separator is left in a value. -/
theorem clean_receiveBos (message : Text) {k v : Text} (h : Wallet.receiveBos message k = some v) :
    Clean v := by
  have hfold : ∀ (pieces : List Text) (data : Text → Option Text), (∀ piece ∈ pieces, ',' ∉ piece) →
      (∀ k v, data k = some v → Clean v) →
      ∀ k v, pieces.foldl assignPiece data k = some v → Clean v := by
    intro pieces
    induction pieces with
    | nil => exact fun data _ hdata => hdata
    | cons piece pieces ih =>
      intro data hpieces hdata
      exact ih _ (fun p hp => hpieces p (by simp [hp]))
        (clean_assignPiece (hpieces piece (by simp)) hdata)
  refine hfold _ (fun _ => none) (fun piece hpiece hcomma => ?_) (by simp) k v h
  exact (mem_piece hpiece hcomma).2 rfl

/-! ### Clean values are found -/

theorem strip_append (s t : Text) : strip (s ++ t) = strip s ++ strip t := List.filter_append s t

theorem strip_of_clean {t : Text} (h : Clean t) : strip t = t := by
  apply List.filter_eq_self.mpr
  intro c hc
  have := h c hc
  simp only [separators, List.mem_cons, not_or] at this
  simp [this]

@[simp] theorem strip_strip (t : Text) : strip (strip t) = strip t := by
  simp [strip, List.filter_filter]

/-- A member as the page sees it. -/
def page (m : Text × Text) : Text := m.1 ++ ':' :: strip m.2

/-- The name and the value of a member contain no separator once the page has deleted the quotes. -/
structure Legible (m : Text × Text) : Prop where
  name : Clean m.1
  unescaped : jsonEscape m.1 = m.1
  value : Clean (strip m.2)

theorem strip_writeMember {m : Text × Text} (h : Legible m) : strip (writeMember m) = page m := by
  have hquote : ∀ t, strip (quote :: t) = strip t := fun t => by simp [strip, quote]
  have hcolon : ∀ t, strip (':' :: t) = ':' :: strip t := fun t => by
    simp [strip, quote, openBrace, closeBrace]
  rw [writeMember, h.unescaped, hquote, strip_append, hquote, hcolon, strip_of_clean h.name, page]

theorem strip_writeObject {members : List (Text × Text)} (h : ∀ m ∈ members, Legible m) :
    strip (writeObject members) = [','].intercalate (members.map page) := by
  have hopen : ∀ t, strip (openBrace :: t) = strip t := fun t => by simp [strip, openBrace]
  have hclose : strip [closeBrace] = [] := by simp [strip, closeBrace]
  have hmembers : (members.map writeMember).map strip = members.map page := by
    rw [List.map_map]
    exact List.map_congr_left (fun m hm => strip_writeMember (h m hm))
  rw [writeObject, hopen, strip_append, hclose, List.append_nil, ← hmembers]
  exact filter_intercalate _ (by decide) _

theorem splitOn_page {m : Text × Text} (h : Legible m) :
    (strip (page m)).splitOn ':' = [m.1, strip m.2] := by
  have hmember : strip (page m) = m.1 ++ ':' :: strip m.2 := by
    rw [page, strip_append, strip_of_clean h.name,
      show strip (':' :: strip m.2) = ':' :: strip (strip m.2) by
        simp [strip, quote, openBrace, closeBrace], strip_strip]
  have hname : ':' ∉ m.1 := fun hc => h.name ':' hc (by simp [separators])
  have hvalue : ':' ∉ strip m.2 := fun hc => h.value ':' hc (by simp [separators])
  rw [hmember, List.splitOn_append_cons_self_of_not_mem hname, List.splitOn_eq_singleton hvalue]

theorem comma_notMem_page {m : Text × Text} (h : Legible m) : ',' ∉ page m := by
  intro hc
  rcases List.mem_append.mp hc with hname | hrest
  · exact h.name ',' hname (by simp [separators])
  · rcases List.mem_cons.mp hrest with hcolon | hvalue
    · cases hcolon
    · exact h.value ',' hvalue (by simp [separators])

theorem foldl_assignPiece (members : List (Text × Text)) (hlegible : ∀ m ∈ members, Legible m)
    (hnames : (members.map Prod.fst).Nodup) (data : Text → Option Text) :
    (∀ k, k ∉ members.map Prod.fst → (members.map page).foldl assignPiece data k = data k) ∧
    ∀ m ∈ members, (members.map page).foldl assignPiece data m.1 = some (strip m.2) := by
  induction members generalizing data with
  | nil => simp
  | cons m members ih =>
    rw [List.map_cons, List.nodup_cons] at hnames
    obtain ⟨hother, hfound⟩ := ih (fun p hp => hlegible p (by simp [hp])) hnames.2
      (assignPiece data (page m))
    have hassign : assignPiece data (page m) = Function.update data m.1 (some (strip m.2)) := by
      rw [assignPiece, splitOn_page (hlegible m (by simp))]
      rfl
    constructor
    · intro k hk
      rw [List.map_cons, List.mem_cons, not_or] at hk
      rw [List.map_cons, List.foldl_cons, hother k hk.2, hassign, Function.update_of_ne hk.1]
    · intro p hp
      rw [List.map_cons, List.foldl_cons]
      rcases List.mem_cons.mp hp with rfl | hp
      · rw [hother p.1 hnames.1, hassign, Function.update_self]
      · exact hfound p hp

/-- The page finds the value of every member, in whatever order they come. -/
theorem receiveBos_writeObject {members : List (Text × Text)} (hlegible : ∀ m ∈ members, Legible m)
    (hnames : (members.map Prod.fst).Nodup) {m : Text × Text} (hm : m ∈ members) :
    Wallet.receiveBos (writeObject members) m.1 = some (strip m.2) := by
  have hpieces : ([','].intercalate (members.map page)).splitOn ',' = members.map page := by
    apply List.splitOn_intercalate
    · intro piece hpiece
      obtain ⟨p, hp, rfl⟩ := List.mem_map.mp hpiece
      exact comma_notMem_page (hlegible p hp)
    · exact List.ne_nil_of_mem (List.mem_map_of_mem hm)
  rw [Wallet.receiveBos, strip_writeObject hlegible, hpieces]
  exact (foldl_assignPiece members hlegible hnames _).2 m hm

/-! ### Escapes -/

/-- The character is written as it is, and the page leaves it alone. -/
def PlainChar (c : Char) : Prop := c ∉ separators ∧ c ≠ backslash ∧ 32 ≤ c.toNat

instance : DecidablePred PlainChar := fun c =>
  inferInstanceAs (Decidable (c ∉ separators ∧ c ≠ backslash ∧ 32 ≤ c.toNat))

def Plain (t : Text) : Prop := ∀ c ∈ t, PlainChar c

instance : DecidablePred Plain := fun t =>
  decidable_of_iff (t.all fun c => PlainChar c) (by simp [Plain])

theorem hexDigit_notMem (d : ℕ) : hexDigit d ∉ separators := by
  have hmem : hexDigit d ∈ '0' :: "0123456789ABCDEF".toList := by
    unfold hexDigit
    by_cases hd : d < "0123456789ABCDEF".toList.length
    · rw [List.getD_eq_getElem _ _ hd]
      exact List.mem_cons_of_mem _ (List.getElem_mem hd)
    · rw [List.getD_eq_default _ _ (not_lt.mp hd)]
      exact List.mem_cons_self
  have hclean : Clean ('0' :: "0123456789ABCDEF".toList) := by decide
  exact hclean _ hmem

theorem clean_jsonEscapeChar {c : Char} (hc : c ∉ separators) : Clean (jsonEscapeChar c) := by
  have hquote : c ≠ quote := fun h => hc (by simp [separators, h])
  unfold jsonEscapeChar
  split_ifs
  · decide
  · decide
  · decide
  · decide
  · have hfixed : Clean [backslash, 'u', '0', '0'] := by decide
    intro d hd
    rcases List.mem_append.mp (show d ∈ [backslash, 'u', '0', '0'] ++
      [hexDigit (c.toNat / 16), hexDigit (c.toNat % 16)] from hd) with hd | hd
    · exact hfixed d hd
    · simp only [List.mem_cons, List.not_mem_nil, or_false] at hd
      rcases hd with rfl | rfl
      · exact hexDigit_notMem _
      · exact hexDigit_notMem _
  · intro d hd
    rwa [List.mem_singleton.mp hd]

theorem clean_jsonEscape {s : Text} (h : Clean s) : Clean (jsonEscape s) := by
  intro c hc
  obtain ⟨d, hd, hcd⟩ := List.mem_flatMap.mp hc
  exact clean_jsonEscapeChar (h d hd) c hcd

theorem jsonEscapeChar_plain {c : Char} (h : PlainChar c) : jsonEscapeChar c = [c] := by
  obtain ⟨hsep, hback, hcontrol⟩ := h
  have hquote : c ≠ quote := fun h => hsep (by simp [separators, h])
  have hr : c ≠ '\r' := by rintro rfl; exact absurd hcontrol (by decide)
  have hn : c ≠ '\n' := by rintro rfl; exact absurd hcontrol (by decide)
  have ht : c ≠ '\t' := by rintro rfl; exact absurd hcontrol (by decide)
  simp [jsonEscapeChar, hback, hr, hn, ht, hquote, not_lt.mpr hcontrol]

theorem jsonEscape_plain {s : Text} (h : Plain s) : jsonEscape s = s := by
  induction s with
  | nil => rfl
  | cons c s ih =>
    have hrest := ih (fun d hd => h d (by simp [hd]))
    rw [jsonEscape, List.flatMap_cons, jsonEscapeChar_plain (h c (by simp))]
    exact congrArg (c :: ·) hrest

/-- An escape is longer than what it stands for. -/
theorem length_jsonEscapeChar (c : Char) :
    1 ≤ (jsonEscapeChar c).length ∧
      ((jsonEscapeChar c).length = 1 → c ≠ backslash ∧ 32 ≤ c.toNat) := by
  unfold jsonEscapeChar
  split_ifs <;> simp_all

theorem length_le_jsonEscape (s : Text) : s.length ≤ (jsonEscape s).length := by
  induction s with
  | nil => exact le_rfl
  | cons c s ih =>
    have := (length_jsonEscapeChar c).1
    rw [jsonEscape, List.flatMap_cons, List.length_append, List.length_cons]
    change s.length + 1 ≤ _ + (jsonEscape s).length
    omega

theorem plain_of_jsonEscape {s : Text} (hclean : Clean s)
    (h : (jsonEscape s).length = s.length) : Plain s := by
  induction s with
  | nil => simp [Plain]
  | cons c s ih =>
    obtain ⟨hpos, hone⟩ := length_jsonEscapeChar c
    have hle := length_le_jsonEscape s
    have hlength : (jsonEscapeChar c).length + (jsonEscape s).length = s.length + 1 := by
      rw [← List.length_append]
      exact h
    have hrest := ih (fun d hd => hclean d (by simp [hd])) (by omega)
    obtain ⟨hback, hcontrol⟩ := hone (by omega)
    intro d hd
    rcases List.mem_cons.mp hd with rfl | hd
    · exact ⟨hclean d (by simp), hback, hcontrol⟩
    · exact hrest d hd

/-- The plain texts are those that neither side changes. -/
theorem plain_iff {s : Text} : Plain s ↔ Clean s ∧ jsonEscape s = s :=
  ⟨fun h => ⟨fun c hc => (h c hc).1, jsonEscape_plain h⟩,
    fun h => plain_of_jsonEscape h.1 (congrArg List.length h.2)⟩

/-! ### The notification -/

/-- The page has the three texts as the server has them. -/
structure ReadsExactly (r : ReceiveBos) (members : List (Text × Text)) : Prop where
  type : Wallet.receiveBos (writeObject members) "type".toList = some r.type
  receiver : Wallet.receiveBos (writeObject members) "receiverAccountAddress".toList =
    some r.receiverAccountAddress
  sender : Wallet.receiveBos (writeObject members) "senderAccountAddress".toList =
    some r.senderAccountAddress

theorem strip_jsonString {s : Text} (h : Clean s) : strip (jsonString s) = jsonEscape s := by
  have hquote : strip [quote] = [] := by simp [strip, quote]
  rw [jsonString,
    show quote :: (jsonEscape s ++ [quote]) = [quote] ++ (jsonEscape s ++ [quote]) from rfl,
    strip_append, strip_append, hquote, List.nil_append, List.append_nil,
    strip_of_clean (clean_jsonEscape h)]

/-- The names of the members. -/
def ReceiveBos.names : List Text :=
  ["type".toList, "receiverAccountAddress".toList, "senderAccountAddress".toList, "amount".toList]

theorem ReceiveBos.map_members (r : ReceiveBos) (amount : Text) :
    (r.members amount).map Prod.fst = ReceiveBos.names := rfl

theorem plain_names : ∀ name ∈ ReceiveBos.names, Plain name := by
  decide

theorem receiveBos_members {r : ReceiveBos} {amount : Text} (hamount : Clean amount)
    {members : List (Text × Text)} (hperm : members.Perm (r.members amount)) (htype : Clean r.type)
    (hreceiver : Clean r.receiverAccountAddress) (hsender : Clean r.senderAccountAddress)
    {m : Text × Text} (hm : m ∈ r.members amount) :
    Wallet.receiveBos (writeObject members) m.1 = some (strip m.2) := by
  have hvalue : ∀ {s : Text}, Clean s → Clean (strip (jsonString s)) := by
    intro s hs
    rw [strip_jsonString hs]
    exact clean_jsonEscape hs
  have hlegible : ∀ m ∈ r.members amount, Legible m := by
    intro m hm
    have hname := plain_names m.1 (r.map_members amount ▸ List.mem_map_of_mem hm)
    refine ⟨fun c hc => (hname c hc).1, jsonEscape_plain hname, ?_⟩
    simp only [ReceiveBos.members, List.mem_cons, List.not_mem_nil, or_false] at hm
    rcases hm with rfl | rfl | rfl | rfl
    · exact hvalue htype
    · exact hvalue hreceiver
    · exact hvalue hsender
    · rw [strip_of_clean hamount]
      exact hamount
  have hnames : ReceiveBos.names.Nodup := by decide
  refine receiveBos_writeObject (fun p hp => hlegible p (hperm.mem_iff.mp hp)) ?_
    (hperm.mem_iff.mpr hm)
  rwa [(hperm.map Prod.fst).nodup_iff, r.map_members amount]

/-- The page reads a notification exactly if none of the three texts has a character that it
deletes or splits at, or one that the server escapes. -/
theorem readsExactly_iff (r : ReceiveBos) (amount : Text) (hamount : Clean amount)
    (members : List (Text × Text)) (hperm : members.Perm (r.members amount)) :
    ReadsExactly r members ↔
      Plain r.type ∧ Plain r.receiverAccountAddress ∧ Plain r.senderAccountAddress := by
  -- without separators, the page finds the texts as they were escaped
  have hfound : Clean r.type → Clean r.receiverAccountAddress → Clean r.senderAccountAddress →
      (ReadsExactly r members ↔ jsonEscape r.type = r.type ∧
        jsonEscape r.receiverAccountAddress = r.receiverAccountAddress ∧
        jsonEscape r.senderAccountAddress = r.senderAccountAddress) := by
    intro htype hreceiver hsender
    have hmember := @receiveBos_members r amount hamount members hperm htype hreceiver hsender
    have h1 := hmember (m := ("type".toList, jsonString r.type)) (.head _)
    have h2 := hmember (m := ("receiverAccountAddress".toList, jsonString r.receiverAccountAddress))
      (.tail _ (.head _))
    have h3 := hmember (m := ("senderAccountAddress".toList, jsonString r.senderAccountAddress))
      (.tail _ (.tail _ (.head _)))
    rw [strip_jsonString htype] at h1
    rw [strip_jsonString hreceiver] at h2
    rw [strip_jsonString hsender] at h3
    constructor
    · rintro ⟨h1', h2', h3'⟩
      exact ⟨Option.some.inj (h1.symm.trans h1'), Option.some.inj (h2.symm.trans h2'),
        Option.some.inj (h3.symm.trans h3')⟩
    · rintro ⟨h1', h2', h3'⟩
      exact ⟨h1.trans (congrArg some h1'), h2.trans (congrArg some h2'),
        h3.trans (congrArg some h3')⟩
  simp only [plain_iff]
  constructor
  · intro h
    have htype := clean_receiveBos _ h.type
    have hreceiver := clean_receiveBos _ h.receiver
    have hsender := clean_receiveBos _ h.sender
    obtain ⟨h1, h2, h3⟩ := (hfound htype hreceiver hsender).mp h
    exact ⟨⟨htype, h1⟩, ⟨hreceiver, h2⟩, ⟨hsender, h3⟩⟩
  · rintro ⟨⟨htype, h1⟩, ⟨hreceiver, h2⟩, ⟨hsender, h3⟩⟩
    exact (hfound htype hreceiver hsender).mpr ⟨h1, h2, h3⟩

/-- The notification that the server sends. -/
theorem readsExactly_receiveBos : ReadsExactly receiveBos (receiveBos.members "10000".toList) :=
  (readsExactly_iff receiveBos "10000".toList (by decide) _ (List.Perm.refl _)).mpr
    ⟨by decide, by decide, by decide⟩

/-- A sender with a colon in its address arrives cut off. -/
theorem not_readsExactly_colon :
    let r : ReceiveBos := { receiveBos with senderAccountAddress := "BOS:A".toList }
    Wallet.receiveBos (writeObject (r.members "10000".toList)) "senderAccountAddress".toList =
      some "BOS".toList ∧ ¬ ReadsExactly r (r.members "10000".toList) := by
  have hcut : Wallet.receiveBos (writeObject (({ receiveBos with
      senderAccountAddress := "BOS:A".toList } : ReceiveBos).members "10000".toList))
      "senderAccountAddress".toList = some "BOS".toList := by decide
  refine ⟨hcut, fun h => ?_⟩
  have hsender := h.sender
  rw [hcut] at hsender
  revert hsender
  decide

end Owlchain.Ui
