import Owlchain.Library.Endian
import Owlchain.Runtime

/-! Web socket frames as bytes. A frame starts with its opcode and length, where a long length
takes two or eight more bytes; a client also sends a key and changes the payload with it.
A frame is read back as it was written, whatever follows it, unless its payload has exactly
65536 bytes: its length is then written as zero. -/

namespace Owlchain.Vibe

open Owlchain.Library Loop Endian

/-- The opcodes that have a name, and the others that four bits can hold. -/
inductive FrameOpcode where
  | continuation
  | text
  | binary
  | close
  | ping
  | pong
  | unknown (code : UInt8)
  deriving DecidableEq

def FrameOpcode.code : FrameOpcode → UInt8
  | .continuation => 0x0
  | .text => 0x1
  | .binary => 0x2
  | .close => 0x8
  | .ping => 0x9
  | .pong => 0xA
  | .unknown code => code

def FrameOpcode.ofCode (code : UInt8) : FrameOpcode :=
  if code = 0x0 then .continuation
  else if code = 0x1 then .text
  else if code = 0x2 then .binary
  else if code = 0x8 then .close
  else if code = 0x9 then .ping
  else if code = 0xA then .pong
  else .unknown code

structure Frame where
  fin : Bool
  opcode : FrameOpcode
  payload : Bytes
  deriving DecidableEq

/-- `payload[i] ^= key[i % 4]` for all `i`. -/
def applyKey (key payload : Bytes) : Bytes := payload.mapIdx fun i x => x ^^^ key.getD (i % 4) 0

/-- The bytes behind the opcode that say how long the payload is; `b1` marks a key. -/
def writeLength (b1 : UInt8) (length : ℕ) : Bytes :=
  if length < 126 then [b1 ||| UInt8.ofNat length]
  else if length ≤ 65536 then (b1 ||| 126) :: bigEndian 2 length
  else (b1 ||| 127) :: bigEndian 8 length

/-- The bytes of a frame; a client draws a key. -/
def writeFrame (frame : Frame) (key : Option Bytes) : Bytes :=
  let firstByte := if frame.fin then frame.opcode.code ||| 0x80 else frame.opcode.code
  match key with
  | none => firstByte :: writeLength 0 frame.payload.length ++ frame.payload
  | some buff =>
    firstByte :: writeLength 0x80 frame.payload.length ++ buff ++ applyKey buff frame.payload

/-- Read from a connection. One that ends before makes the call throw. -/
def readBytes (n : ℕ) (stream : Bytes) : Result (Bytes × Bytes) :=
  if n ≤ stream.length then .ok (stream.take n, stream.drop n) else .error .enforce

/-- The length of a frame, from the seven bits of its second byte and what follows. -/
def readLength (length : ℕ) (stream : Bytes) : Result (ℕ × Bytes) :=
  if length = 126 then do
    let (data2, stream) ← readBytes 2 stream
    return (fromBigEndian data2, stream)
  else if length = 127 then do
    let (data8, stream) ← readBytes 8 stream
    return (fromBigEndian data8, stream)
  else .ok (length, stream)

/-- The key of a frame; without one it is zero. -/
def readKey (masked : Bool) (stream : Bytes) : Result (Bytes × Bytes) :=
  if masked then readBytes 4 stream else .ok ([0, 0, 0, 0], stream)

def readFrame (stream : Bytes) : Result (Frame × Bytes) := do
  let (data2, stream) ← readBytes 2 stream
  let first ← at? data2 0
  let second ← at? data2 1
  let (length, stream) ← readLength (second &&& 0x7f).toNat stream
  let (maskingKey, stream) ← readKey (second &&& 0x80 = 0x80) stream
  let (payload, stream) ← readBytes length stream
  return (⟨first &&& 0x80 = 0x80, .ofCode (first &&& 0xf), applyKey maskingKey payload⟩, stream)

/-! ### Reading what was written -/

theorem readBytes_append_of_le {n : ℕ} {bytes : Bytes} (h : n ≤ bytes.length) (rest : Bytes) :
    readBytes n (bytes ++ rest) = .ok (bytes.take n, bytes.drop n ++ rest) := by
  rw [readBytes, if_pos (by rw [List.length_append]; omega), List.take_append_of_le_length h,
    List.drop_append_of_le_length h]

theorem readBytes_append {n : ℕ} {bytes : Bytes} (h : bytes.length = n) (rest : Bytes) :
    readBytes n (bytes ++ rest) = .ok (bytes, rest) := by
  subst h
  rw [readBytes_append_of_le (Nat.le_refl _), List.take_length, List.drop_length, List.nil_append]

/-- An opcode that has a name. -/
def FrameOpcode.Named : FrameOpcode → Prop
  | .unknown _ => False
  | _ => True

instance : DecidablePred FrameOpcode.Named := fun opcode => by
  cases opcode
  case unknown => exact .isFalse id
  all_goals exact .isTrue trivial

theorem firstByte_eq {opcode : FrameOpcode} (h : opcode.Named) (fin : Bool) :
    decide ((if fin then opcode.code ||| 0x80 else opcode.code) &&& 0x80 = 0x80) = fin ∧
      FrameOpcode.ofCode ((if fin then opcode.code ||| 0x80 else opcode.code) &&& 0xf) =
        opcode := by
  cases opcode with
  | unknown code => exact h.elim
  | _ => cases fin <;> decide

/-- The length that is read for a length that was written. -/
def lengthRead (length : ℕ) : ℕ := if length = 65536 then 0 else length

theorem writeLength_eq {b1 : UInt8} (hb1 : b1 = 0 ∨ b1 = 0x80) {length : ℕ}
    (hlength : length < 2 ^ 64) (rest : Bytes) :
    ∃ second more, writeLength b1 length = second :: more ∧ (second &&& 0x80 = 0x80 ↔ b1 = 0x80) ∧
      readLength (second &&& 0x7f).toNat (more ++ rest) = .ok (lengthRead length, rest) := by
  rw [writeLength]
  split_ifs with hshort hmiddle
  · have hbits : ∀ n < 126, ∀ b ∈ [(0 : UInt8), 0x80],
        ((b ||| UInt8.ofNat n) &&& 0x80 = 0x80 ↔ b = 0x80) ∧
          ((b ||| UInt8.ofNat n) &&& 0x7f).toNat = n := by
      decide +kernel
    obtain ⟨hmark, hn⟩ := hbits length hshort b1 (by simpa using hb1)
    refine ⟨_, [], rfl, hmark, ?_⟩
    rw [hn, readLength, if_neg (by omega), if_neg (by omega), lengthRead, if_neg (by omega)]
    rfl
  · refine ⟨_, _, rfl, ?_, ?_⟩
    · rcases hb1 with rfl | rfl <;> decide
    · have hbits : ((b1 ||| 126) &&& 0x7f).toNat = 126 := by
        rcases hb1 with rfl | rfl <;> decide
      rw [hbits, readLength, if_pos rfl, readBytes_append (length_bigEndian 2 length), ok_bind]
      dsimp only
      rw [fromBigEndian_bigEndian, lengthRead]
      refine congrArg (fun n => Except.ok (n, rest)) ?_
      split_ifs <;> omega
  · refine ⟨_, _, rfl, ?_, ?_⟩
    · rcases hb1 with rfl | rfl <;> decide
    · have hbits : ((b1 ||| 127) &&& 0x7f).toNat = 127 := by
        rcases hb1 with rfl | rfl <;> decide
      rw [hbits, readLength, if_neg (by decide), if_pos rfl,
        readBytes_append (length_bigEndian 8 length), ok_bind]
      dsimp only
      rw [fromBigEndian_of_lt (by omega), lengthRead, if_neg (by omega)]
      rfl

theorem applyKey_applyKey (key payload : Bytes) :
    applyKey key (applyKey key payload) = payload := by
  refine List.ext_getElem? fun i => ?_
  rw [applyKey, applyKey, List.getElem?_mapIdx, List.getElem?_mapIdx, Option.map_map]
  cases payload[i]? with
  | none => rfl
  | some x =>
    rw [Option.map_some, Function.comp_apply, UInt8.xor_assoc, UInt8.xor_self, UInt8.xor_zero]

theorem applyKey_zero (payload : Bytes) : applyKey [0, 0, 0, 0] payload = payload := by
  have hzero : ∀ i, ([0, 0, 0, 0] : Bytes).getD i 0 = 0 := by
    intro i
    rcases i with _ | _ | _ | _ | i <;> rfl
  refine List.ext_getElem? fun i => ?_
  rw [applyKey, List.getElem?_mapIdx]
  cases payload[i]? with
  | none => rfl
  | some x => simp only [Option.map_some, hzero, UInt8.xor_zero]

theorem length_applyKey (key payload : Bytes) : (applyKey key payload).length = payload.length :=
  List.length_mapIdx

theorem take_applyKey (key payload : Bytes) (n : ℕ) :
    (applyKey key payload).take n = applyKey key (payload.take n) := by
  refine List.ext_getElem? fun i => ?_
  rw [applyKey, applyKey, List.getElem?_take, List.getElem?_mapIdx, List.getElem?_mapIdx,
    List.getElem?_take]
  split_ifs <;> rfl

/-- The payload as it is sent. -/
def sentPayload (frame : Frame) : Option Bytes → Bytes
  | none => frame.payload
  | some key => applyKey key frame.payload

/-- The parts of a frame, one after the other. -/
theorem readFrame_eq {first second : UInt8} {stream s₁ s₂ s₃ key payload : Bytes} {length : ℕ}
    (hlength : readLength (second &&& 0x7f).toNat stream = .ok (length, s₁))
    (hkey : readKey (second &&& 0x80 = 0x80) s₁ = .ok (key, s₂))
    (hpayload : readBytes length s₂ = .ok (payload, s₃)) :
    readFrame (first :: second :: stream) =
      .ok (⟨first &&& 0x80 = 0x80, .ofCode (first &&& 0xf), applyKey key payload⟩, s₃) := by
  have hheader : readBytes 2 (first :: second :: stream) = .ok ([first, second], stream) := by
    have htwo : [first, second].length = 2 := rfl
    exact readBytes_append htwo stream
  rw [readFrame, hheader, ok_bind]
  change readLength (second &&& 0x7f).toNat stream >>= _ = _
  rw [hlength, ok_bind]
  dsimp only
  rw [hkey, ok_bind]
  dsimp only
  rw [hpayload, ok_bind]
  rfl

/-- A frame is read back, up to the length that is read. -/
theorem readFrame_writeFrame {frame : Frame} (hopcode : frame.opcode.Named)
    (hlength : frame.payload.length < 2 ^ 64) {key : Option Bytes}
    (hkey : ∀ buff ∈ key, buff.length = 4) (rest : Bytes) :
    readFrame (writeFrame frame key ++ rest) =
      .ok ({ frame with payload := frame.payload.take (lengthRead frame.payload.length) },
        (sentPayload frame key).drop (lengthRead frame.payload.length) ++ rest) := by
  obtain ⟨hfin, hcode⟩ := firstByte_eq hopcode frame.fin
  have hle : lengthRead frame.payload.length ≤ frame.payload.length := by
    rw [lengthRead]
    split_ifs <;> omega
  cases key with
  | none =>
    obtain ⟨second, more, hwrite, hmark, hread⟩ :=
      writeLength_eq (.inl rfl) hlength (frame.payload ++ rest)
    have hnokey : readKey (second &&& 0x80 = 0x80) (frame.payload ++ rest) =
        .ok ([0, 0, 0, 0], frame.payload ++ rest) := by
      rw [readKey, if_neg (by simp [hmark])]
    rw [writeFrame, hwrite]
    simp only [List.cons_append, List.append_assoc]
    rw [readFrame_eq hread hnokey (readBytes_append_of_le hle rest), hfin, hcode, applyKey_zero]
    rfl
  | some buff =>
    have hbuff : buff.length = 4 := hkey buff rfl
    obtain ⟨second, more, hwrite, hmark, hread⟩ :=
      writeLength_eq (.inr rfl) hlength (buff ++ (applyKey buff frame.payload ++ rest))
    have hkey : readKey (second &&& 0x80 = 0x80) (buff ++ (applyKey buff frame.payload ++ rest)) =
        .ok (buff, applyKey buff frame.payload ++ rest) := by
      rw [readKey, if_pos (by simp [hmark]), readBytes_append hbuff]
    rw [writeFrame, hwrite]
    simp only [List.cons_append, List.append_assoc]
    rw [readFrame_eq hread hkey (readBytes_append_of_le (by rwa [length_applyKey]) rest), hfin,
      hcode, take_applyKey, applyKey_applyKey]
    rfl

theorem length_sentPayload (frame : Frame) (key : Option Bytes) :
    (sentPayload frame key).length = frame.payload.length := by
  cases key with
  | none => rfl
  | some buff => exact length_applyKey buff frame.payload

theorem readFrame_writeFrame_of_ne {frame : Frame} (hopcode : frame.opcode.Named)
    (hlength : frame.payload.length < 2 ^ 64) (hne : frame.payload.length ≠ 65536)
    {key : Option Bytes} (hkey : ∀ buff ∈ key, buff.length = 4) (rest : Bytes) :
    readFrame (writeFrame frame key ++ rest) = .ok (frame, rest) := by
  rw [readFrame_writeFrame hopcode hlength hkey, lengthRead, if_neg hne, List.take_length,
    List.drop_of_length_le (Nat.le_of_eq (length_sentPayload frame key)), List.nil_append]

theorem length_writeFrame (frame : Frame) (key : Option Bytes) :
    frame.payload.length < (writeFrame frame key).length := by
  cases key with
  | none =>
    rw [writeFrame, List.cons_append, List.length_cons, List.length_append]
    omega
  | some buff =>
    rw [writeFrame, List.cons_append, List.cons_append, List.length_cons, List.length_append,
      length_applyKey]
    omega

/-- A frame comes back as it was written, and what follows it is still there, exactly if its
payload does not have 65536 bytes. -/
theorem frame_round_trip_iff {frame : Frame} (hopcode : frame.opcode.Named)
    (hlength : frame.payload.length < 2 ^ 64) {key : Option Bytes}
    (hkey : ∀ buff ∈ key, buff.length = 4) (rest : Bytes) :
    readFrame (writeFrame frame key ++ rest) = .ok (frame, rest) ↔
      frame.payload.length ≠ 65536 := by
  refine ⟨fun heq hlen => ?_, fun hne => readFrame_writeFrame_of_ne hopcode hlength hne hkey rest⟩
  rw [readFrame_writeFrame hopcode hlength hkey] at heq
  have hpayload : frame.payload.take (lengthRead frame.payload.length) = frame.payload :=
    congrArg (Frame.payload ∘ Prod.fst) (Except.ok.inj heq)
  rw [lengthRead, if_pos hlen, List.take_zero] at hpayload
  rw [← hpayload] at hlen
  cases hlen

/-- A ping of a client. -/
theorem frame_round_trip_ping :
    readFrame (writeFrame ⟨true, .ping, [1, 2, 3]⟩ (some [7, 7, 7, 7]) ++ [5]) =
      .ok (⟨true, .ping, [1, 2, 3]⟩, [5]) :=
  (frame_round_trip_iff (by decide) (by decide) (by decide) [5]).mpr (by decide)

end Owlchain.Vibe
