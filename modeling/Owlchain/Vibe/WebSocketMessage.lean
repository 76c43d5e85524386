import Owlchain.Library.While
import Owlchain.Vibe.Frame

/-! Web socket messages. The sender writes a message into a buffer and may flush it several
times, so a message is one or more frames, of which only the last is final. The receiver
answers the pings before a message and then reads frames until one has no bytes left. A
message arrives whole, and what follows it stays in place, exactly if none of its frames but
the last is empty. -/

namespace Owlchain.Vibe

open Owlchain.Library Loop

/-! ### The two sides -/

/-- What is done with an `OutgoingWebSocketMessage` before it is finalized. -/
inductive WriteOp where
  | write (bytes : Bytes)
  | flush
  deriving DecidableEq

/-- The frames of a message, of which a part is still in the buffer. -/
def fragments (frameOpcode : FrameOpcode) : List WriteOp → Bytes → List Frame
  | [], buffer => [⟨true, frameOpcode, buffer⟩]
  | .write bytes :: ops, buffer => fragments frameOpcode ops (buffer ++ bytes)
  | .flush :: ops, buffer => ⟨false, frameOpcode, buffer⟩ :: fragments frameOpcode ops []

/-- All that is written. -/
def written : List WriteOp → Bytes
  | [] => []
  | .write bytes :: ops => bytes ++ written ops
  | .flush :: ops => written ops

/-- `IncomingWebSocketMessage`, with what the connection has yet to deliver. -/
structure Incoming where
  currentFrame : Frame
  conn : Bytes

/-- Go on with the next frame of the message when this one has been read. -/
def Incoming.refill (m : Incoming) : Result Incoming :=
  if m.currentFrame.payload.length = 0 ∧ m.currentFrame.fin = false then do
    let (frame, conn) ← readFrame m.conn
    return ⟨frame, conn⟩
  else .ok m

/-- `IncomingWebSocketMessage.read`, with the bytes that are put into `dst`. -/
def Incoming.read : ℕ → Incoming → ℕ → Result (Bytes × Incoming)
  | passes, m, length =>
    if length = 0 then .ok ([], m)
    else
      match passes with
      | 0 => .error .unfinished
      | passes + 1 =>
        if m.currentFrame.payload.length = 0 then .error .enforce
        else do
          let sz := min m.currentFrame.payload.length length
          let m' ← Incoming.refill { m with
            currentFrame := { m.currentFrame with payload := m.currentFrame.payload.drop sz } }
          let (bytes, m') ← Incoming.read passes m' (length - sz)
          return (m.currentFrame.payload.take sz ++ bytes, m')

/-- The size of the buffer of `readAll`. -/
def bufferLength : ℕ := 64 * 1024 - 4

/-- The loop of `readAll`. -/
def Incoming.readAll : ℕ → Incoming → Bytes → Result (Bytes × Incoming)
  | passes, m, dst =>
    if m.currentFrame.payload.length = 0 then .ok (dst, m)
    else
      match passes with
      | 0 => .error .unfinished
      | passes + 1 => do
        let chunk := min m.currentFrame.payload.length bufferLength
        let (bytes, m) ← m.read chunk chunk
        Incoming.readAll passes m (dst ++ bytes)

/-- A frame that is read back as it was written. -/
structure Frame.Plain (frame : Frame) : Prop where
  opcode : frame.opcode.Named
  length_lt : frame.payload.length < 2 ^ 64
  length_ne : frame.payload.length ≠ 65536

instance (frame : Frame) : Decidable frame.Plain :=
  decidable_of_iff (frame.opcode.Named ∧ frame.payload.length < 2 ^ 64 ∧
    frame.payload.length ≠ 65536)
    ⟨fun ⟨h, hlt, hne⟩ => ⟨h, hlt, hne⟩, fun h => ⟨h.opcode, h.length_lt, h.length_ne⟩⟩

/-- The bytes of some frames, each with a key or without. -/
inductive Wire : List Frame → Bytes → Prop
  | nil : Wire [] []
  | cons {frame : Frame} {frames : List Frame} {bytes : Bytes} (key : Option Bytes)
      (hkey : ∀ buff ∈ key, buff.length = 4)
    (h : Wire frames bytes) : Wire (frame :: frames) (writeFrame frame key ++ bytes)

theorem Wire.read {frame : Frame} {frames : List Frame} {bytes : Bytes}
    (h : Wire (frame :: frames) bytes) (hplain : frame.Plain) :
    ∃ bytes', Wire frames bytes' ∧ bytes'.length + frame.payload.length < bytes.length ∧
      ∀ rest, readFrame (bytes ++ rest) = .ok (frame, bytes' ++ rest) := by
  cases h with
  | @cons _ _ bytes' key hkey h =>
    refine ⟨bytes', h, ?_, fun rest => ?_⟩
    · have := length_writeFrame frame key
      rw [List.length_append]
      omega
    · rw [List.append_assoc, readFrame_writeFrame_of_ne hplain.opcode hplain.length_lt
        hplain.length_ne hkey]

/-! ### Reading a message -/

theorem readAll_of_empty {m : Incoming} (h : m.currentFrame.payload = []) (passes : ℕ)
    (dst : Bytes) :
    m.readAll passes dst = .ok (dst, m) := by
  cases passes <;> rw [Incoming.readAll, if_pos (by rw [h]; rfl)]

/-- One pass of `read`, for no more bytes than the frame has. -/
theorem read_eq {m : Incoming} {n : ℕ} (hpos : 0 < n) (hle : n ≤ m.currentFrame.payload.length) :
    m.read n n = (do
      let m' ← Incoming.refill { m with
        currentFrame := { m.currentFrame with payload := m.currentFrame.payload.drop n } }
      return (m.currentFrame.payload.take n, m')) := by
  obtain ⟨k, rfl⟩ := Nat.exists_eq_add_one_of_ne_zero (Nat.ne_of_gt hpos)
  have hdone : ∀ m' : Incoming, Incoming.read k m' 0 = .ok ([], m') :=
    fun m' => by cases k <;> rw [Incoming.read, if_pos rfl]
  rw [Incoming.read, if_neg (by omega), if_neg (by omega)]
  dsimp only
  rw [min_eq_right hle, Nat.sub_self]
  simp only [hdone, ok_bind, List.append_nil]

/-- The passes of `readAll` through one frame. -/
theorem readAll_frame {n : ℕ} :
    ∀ (m : Incoming), m.currentFrame.payload.length = n → 0 < n → ∀ dst : Bytes,
    ∃ k ≤ n, ∀ passes, m.readAll (passes + k) dst = (do
      let m' ← Incoming.refill { m with currentFrame := { m.currentFrame with payload := [] } }
      m'.readAll passes (dst ++ m.currentFrame.payload)) := by
  induction n using Nat.strong_induction_on with
  | _ n ih =>
    intro m hn hpos dst
    have hstep : ∀ passes, m.readAll (passes + 1) dst = (do
        let m' ← Incoming.refill { m with currentFrame :=
          { m.currentFrame with payload := m.currentFrame.payload.drop (min n bufferLength) } }
        m'.readAll passes (dst ++ m.currentFrame.payload.take (min n bufferLength))) := by
      intro passes
      rw [Incoming.readAll, if_neg (by omega)]
      dsimp only
      rw [hn, read_eq (by rw [bufferLength]; omega) (by omega)]
      cases Incoming.refill { m with currentFrame :=
          { m.currentFrame with payload := m.currentFrame.payload.drop (min n bufferLength) } } <;>
            rfl
    by_cases hlast : n ≤ bufferLength
    · refine ⟨1, hpos, fun passes => ?_⟩
      rw [hstep, min_eq_left hlast, ← hn, List.take_length, List.drop_length]
    · -- the frame has more bytes than the buffer
      have hlen : (m.currentFrame.payload.drop bufferLength).length = n - bufferLength := by
        rw [List.length_drop, hn]
      obtain ⟨k, hk, hrest⟩ := ih (n - bufferLength) (by rw [bufferLength]; omega)
        { m with currentFrame :=
          { m.currentFrame with payload := m.currentFrame.payload.drop bufferLength } }
        hlen (by omega)
        (dst ++ m.currentFrame.payload.take bufferLength)
      refine ⟨k + 1, by rw [bufferLength] at hk; omega, fun passes => ?_⟩
      rw [← Nat.add_assoc, hstep, min_eq_right (by omega), Incoming.refill,
        if_neg (by dsimp only; omega), ok_bind, hrest]
      dsimp only
      rw [List.append_assoc, List.take_append_drop]

/-- What a receiver gets from the frames of a message, and the frames that it leaves. -/
def deliver : List Frame → Bytes × List Frame
  | [] => ([], [])
  | frame :: frames =>
    if frame.payload = [] then ([], frames)
    else if frame.fin then (frame.payload, frames)
    else (frame.payload ++ (deliver frames).1, (deliver frames).2)

/-- Only the last frame of a message is final. -/
def Message : List Frame → Prop
  | [] => False
  | [frame] => frame.fin = true
  | frame :: next :: frames => frame.fin = false ∧ Message (next :: frames)

theorem deliver_of_empty {frame : Frame} (h : frame.payload = []) (frames : List Frame) :
    deliver (frame :: frames) = ([], frames) := by rw [deliver, if_pos h]

theorem deliver_of_fin {frame : Frame} (h : frame.payload ≠ []) (hfin : frame.fin = true)
    (frames : List Frame) :
    deliver (frame :: frames) = (frame.payload, frames) := by rw [deliver, if_neg h, if_pos hfin]

theorem deliver_of_more {frame : Frame} (h : frame.payload ≠ []) (hfin : frame.fin = false)
    (frames : List Frame) :
    deliver (frame :: frames) = (frame.payload ++ (deliver frames).1, (deliver frames).2) := by
  rw [deliver, if_neg h, if_neg (by simp [hfin])]

/-- A receiver that has read the first frame of a message reads on. -/
theorem readAll_message (frames : List Frame) :
    ∀ (frame : Frame) (bytes rest dst : Bytes), Message (frame :: frames) →
    Wire frames bytes → (∀ f ∈ frames, f.Plain) →
    ∀ passes, frame.payload.length + bytes.length ≤ passes →
    ∃ bytes' last, Wire (deliver (frame :: frames)).2 bytes' ∧
      Incoming.readAll passes ⟨frame, bytes ++ rest⟩ dst =
        .ok (dst ++ (deliver (frame :: frames)).1, ⟨last, bytes' ++ rest⟩) := by
  induction frames with
  | nil =>
    intro frame bytes rest dst hmessage hwire _ passes hpasses
    have hfin : frame.fin = true := hmessage
    by_cases hempty : frame.payload = []
    · rw [deliver_of_empty hempty, List.append_nil]
      exact ⟨bytes, frame, hwire, readAll_of_empty hempty passes dst⟩
    · rw [deliver_of_fin hempty hfin]
      obtain ⟨k, hk, hread⟩ :=
        readAll_frame ⟨frame, bytes ++ rest⟩ rfl (List.length_pos_iff.mpr hempty) dst
      obtain ⟨p, rfl⟩ : ∃ p, passes = p + k := ⟨passes - k, by dsimp only at hk; omega⟩
      refine ⟨bytes, { frame with payload := [] }, hwire, ?_⟩
      rw [hread, Incoming.refill, if_neg (by simp [hfin]), ok_bind, readAll_of_empty rfl]
  | cons next frames ih =>
    intro frame bytes rest dst hmessage hwire hplain passes hpasses
    obtain ⟨hfin, hmessage⟩ := hmessage
    by_cases hempty : frame.payload = []
    · rw [deliver_of_empty hempty, List.append_nil]
      exact ⟨bytes, frame, hwire, readAll_of_empty hempty passes dst⟩
    · rw [deliver_of_more hempty hfin, ← List.append_assoc]
      obtain ⟨k, hk, hread⟩ :=
        readAll_frame ⟨frame, bytes ++ rest⟩ rfl (List.length_pos_iff.mpr hempty) dst
      obtain ⟨p, rfl⟩ : ∃ p, passes = p + k := ⟨passes - k, by dsimp only at hk; omega⟩
      obtain ⟨bytes₁, hwire₁, hlen₁, hframe⟩ := hwire.read (hplain next List.mem_cons_self)
      obtain ⟨bytes', last, hwire', hrest⟩ :=
        ih next bytes₁ rest (dst ++ frame.payload) hmessage hwire₁
        (fun f hf => hplain f (List.mem_cons_of_mem next hf)) p (by dsimp only at hk; omega)
      refine ⟨bytes', last, hwire', ?_⟩
      rw [hread, Incoming.refill, if_pos ⟨rfl, hfin⟩]
      dsimp only
      rw [hframe, ← hrest]
      rfl

/-! ### Whole messages -/

def pingFrame (payload : Bytes) : Frame := ⟨true, .ping, payload⟩

def pongFrame (payload : Bytes) : Frame := ⟨true, .pong, payload⟩

/-- The frames of a message have its type, and together all that was written. -/
theorem fragments_eq (opcode : FrameOpcode) (ops : List WriteOp) : ∀ buffer : Bytes, ∃ frame frames,
    fragments opcode ops buffer = frame :: frames ∧ Message (frame :: frames) ∧
      frame.opcode = opcode ∧
      (frame :: frames).flatMap Frame.payload = buffer ++ written ops := by
  induction ops with
  | nil => exact fun buffer => ⟨_, [], rfl, rfl, rfl, by simp [written]⟩
  | cons op ops ih =>
    intro buffer
    cases op with
    | write bytes =>
      obtain ⟨frame, frames, hfragments, hmessage, hopcode, hpayload⟩ := ih (buffer ++ bytes)
      exact ⟨frame, frames, hfragments, hmessage, hopcode,
        by rw [hpayload, List.append_assoc, written]⟩
    | flush =>
      obtain ⟨frame, frames, hfragments, hmessage, -, hpayload⟩ := ih []
      refine ⟨⟨false, opcode, buffer⟩, frame :: frames, by rw [fragments, hfragments],
        ⟨rfl, hmessage⟩, rfl, ?_⟩
      rw [List.flatMap_cons, hpayload, List.nil_append, written]

/-- No frame but the last is empty. -/
def Whole (frames : List Frame) : Prop := ∀ frame ∈ frames, frame.fin = false → frame.payload ≠ []

instance (frames : List Frame) : Decidable (Whole frames) :=
  inferInstanceAs (Decidable (∀ frame ∈ frames, frame.fin = false → frame.payload ≠ []))

/-- A message is delivered whole, or some of its frames are left. -/
theorem deliver_message (frames : List Frame) : ∀ frame : Frame, Message (frame :: frames) →
    (Whole (frame :: frames) →
      deliver (frame :: frames) = ((frame :: frames).flatMap Frame.payload, [])) ∧
      (¬ Whole (frame :: frames) → (deliver (frame :: frames)).2 ≠ []) := by
  induction frames with
  | nil =>
    intro frame hmessage
    have hfin : frame.fin = true := hmessage
    refine ⟨fun _ => ?_, fun hnot => absurd (fun f hf hf' => ?_) hnot⟩
    · by_cases hempty : frame.payload = []
      · rw [deliver_of_empty hempty, List.flatMap_singleton, hempty]
      · rw [deliver_of_fin hempty hfin, List.flatMap_singleton]
    · rw [List.mem_singleton.mp hf, hfin] at hf'
      cases hf'
  | cons next frames ih =>
    intro frame hmessage
    obtain ⟨hfin, hmessage⟩ := hmessage
    obtain ⟨hwhole, hnot⟩ := ih next hmessage
    by_cases hempty : frame.payload = []
    · refine ⟨fun h => absurd hempty (h frame List.mem_cons_self hfin), fun _ => ?_⟩
      rw [deliver_of_empty hempty]
      exact List.cons_ne_nil next frames
    · rw [deliver_of_more hempty hfin]
      refine ⟨fun h => ?_, fun h => hnot fun hrest => h ?_⟩
      · rw [hwhole fun f hf => h f (List.mem_cons_of_mem frame hf)]
        rfl
      · intro f hf
        rcases List.mem_cons.mp hf with rfl | hf
        · exact fun _ => hempty
        · exact hrest f hf

theorem Wire.bytes_eq_nil {bytes : Bytes} (h : Wire [] bytes) : bytes = [] := by
  cases h
  rfl

theorem Wire.eq_nil {frames : List Frame} (h : Wire frames []) : frames = [] := by
  generalize hbytes : ([] : Bytes) = bytes at h
  cases h with
  | nil => rfl
  | @cons frame _ _ key _ _ =>
    have hpos := length_writeFrame frame key
    rw [(List.append_eq_nil_iff.mp hbytes.symm).1] at hpos
    exact absurd hpos (Nat.not_lt_zero _)

theorem Wire.split {a b : List Frame} {bytes : Bytes} (h : Wire (a ++ b) bytes) :
    ∃ x y, bytes = x ++ y ∧ Wire a x ∧ Wire b y := by
  induction a generalizing bytes with
  | nil => exact ⟨[], bytes, rfl, .nil, h⟩
  | cons frame a ih =>
    cases h with
    | cons key hkey h =>
      obtain ⟨x, y, rfl, hx, hy⟩ := ih h
      exact ⟨_, y, (List.append_assoc ..).symm, .cons key hkey hx, hy⟩

theorem Wire.single (frame : Frame) {key : Option Bytes} (hkey : ∀ buff ∈ key, buff.length = 4) :
    Wire [frame] (writeFrame frame key) := by
  have h : Wire [frame] (writeFrame frame key ++ []) := .cons key hkey .nil
  rwa [List.append_nil] at h

theorem Wire.append {a b : List Frame} {x y : Bytes} (ha : Wire a x) (hb : Wire b y) :
    Wire (a ++ b) (x ++ y) := by
  induction ha with
  | nil => exact hb
  | cons key hkey _ ih => exact List.append_assoc (writeFrame _ key) _ _ ▸ .cons key hkey ih

/-- A type of message that an application sends. -/
def FrameOpcode.IsData (opcode : FrameOpcode) : Prop := opcode = .text ∨ opcode = .binary

/-- A message and the pings before it. -/
structure Turn where
  pings : List Bytes
  opcode : FrameOpcode
  ops : List WriteOp

def Turn.frames (t : Turn) : List Frame := t.pings.map pingFrame ++ fragments t.opcode t.ops []

/-- A turn that arrives. -/
structure Turn.Plain (t : Turn) : Prop where
  opcode : t.opcode.IsData
  frames : ∀ frame ∈ t.frames, frame.Plain
  whole : Whole (fragments t.opcode t.ops [])

end Owlchain.Vibe
