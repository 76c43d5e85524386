import Owlchain.Crypto.Runtime
import Owlchain.Library.DynArray
import Owlchain.Library.Transition

/-! The list of open web sockets. Every connection runs `handleWebSocketConnection` in a
task of its own; the tasks share the array `sockets` and switch at each call that waits,
receives, sends or closes. A step of the server lets one task go on from such a call to
the next one, or ends it by an exception thrown there. -/

namespace Owlchain.Ui

open Owlchain.Crypto Owlchain.Library

/-! ### `vibe.utils.array` -/

section Removal
variable {α : Type*}

/-- `array[j-1] = array[j]`. -/
def moveDown (a : DynArray α) (j : ℕ) : DynArray α :=
  match (a.cells a.block)[j]? with
  | some x => a.write (j - 1) x
  | none => a

def removeFromArrayIdx (a : DynArray α) (idx : ℕ) : DynArray α :=
  ((List.range' (idx + 1) (a.length - (idx + 1))).foldl moveDown a).shrink

/-- Remove the first occurrence of an item. -/
def removeFromArray [DecidableEq α] (a : DynArray α) (item : α) : DynArray α :=
  match a.view.idxOf? item with
  | some i => removeFromArrayIdx a i
  | none => a

/-- The `t` cells behind cell `i` have moved down by one. -/
def Shifted (l l' : List α) (i t : ℕ) : Prop :=
  ∀ k, l'[k]? = if i ≤ k ∧ k < i + t then l[k + 1]? else l[k]?

/-- Moves change only the cells of the block held. -/
structure Moved (a a' : DynArray α) (i t : ℕ) : Prop where
  allocated : a'.allocated = a.allocated
  block : a'.block = a.block
  other : ∀ b ≠ a.block, a'.cells b = a.cells b
  size : (a'.cells a.block).length = (a.cells a.block).length
  cell : Shifted (a.cells a.block) (a'.cells a.block) i t

theorem moved_succ {a a' : DynArray α} {i t : ℕ} (h : Moved a a' i t)
    (hlt : i + 1 + t < (a.cells a.block).length) : Moved a (moveDown a' (i + 1 + t)) i (t + 1) := by
  have hread : (a'.cells a'.block)[i + 1 + t]? = some (a.cells a.block)[i + 1 + t] := by
    rw [h.block, h.cell, if_neg (by omega), List.getElem?_eq_getElem hlt]
  have hmove : moveDown a' (i + 1 + t) = a'.write (i + 1 + t - 1) (a.cells a.block)[i + 1 + t] := by
    rw [moveDown, hread]
  have hlen : i + t < (a'.cells a.block).length := by rw [h.size]; omega
  rw [hmove, show i + 1 + t - 1 = i + t by omega]
  refine ⟨h.allocated, h.block, fun b hb => ?_, ?_, fun k => ?_⟩
  · exact (Function.update_of_ne (h.block ▸ hb) _ _).trans (h.other b hb)
  · simp only [DynArray.write, h.block, Function.update_self, List.length_set, h.size]
  · simp only [DynArray.write, h.block, Function.update_self]
    by_cases hk : k = i + t
    · subst hk
      rw [List.getElem?_set_self hlen, if_pos (by omega), show i + t + 1 = i + 1 + t by omega,
        List.getElem?_eq_getElem hlt]
    · rw [List.getElem?_set_ne (Ne.symm hk), h.cell]
      by_cases hin : i ≤ k ∧ k < i + t
      · rw [if_pos hin, if_pos (by omega)]
      · rw [if_neg hin, if_neg (by omega)]

theorem moved_foldl (a : DynArray α) (i : ℕ) :
    ∀ t, i + 1 + t ≤ (a.cells a.block).length →
      Moved a ((List.range' (i + 1) t).foldl moveDown a) i t
  | 0, _ => by
    refine ⟨rfl, rfl, fun _ _ => rfl, rfl, fun k => ?_⟩
    rw [if_neg (by omega)]
    rfl
  | t + 1, hle => by
    rw [List.range'_concat, List.foldl_append, Nat.one_mul]
    exact moved_succ (moved_foldl a i t (by omega)) (by omega)

theorem length_foldl_moveDown (js : List ℕ) (a : DynArray α) :
    (js.foldl moveDown a).length = a.length := by
  induction js generalizing a with
  | nil => rfl
  | cons j js ih =>
    rw [List.foldl_cons, ih, moveDown]
    split <;> rfl

/-- What a removal does to the memory: the later elements move down by one, in place. -/
theorem moved_removeFromArrayIdx {a : DynArray α} {i : ℕ} (hi : i < a.length) :
    Moved a (removeFromArrayIdx a i) i (a.length - (i + 1)) := by
  have h := moved_foldl a i (a.length - (i + 1)) (by have := a.length_le; omega)
  exact ⟨h.allocated, h.block, h.other, h.size, h.cell⟩

theorem view_removeFromArrayIdx {a : DynArray α} {i : ℕ} (hi : i < a.length) :
    (removeFromArrayIdx a i).view = a.view.eraseIdx i := by
  have h := moved_removeFromArrayIdx hi
  have hlength : (removeFromArrayIdx a i).length = a.length - 1 :=
    congrArg (· - 1) (length_foldl_moveDown _ a)
  apply List.ext_getElem?
  intro k
  simp only [DynArray.view, h.block, hlength, List.getElem?_take, h.cell k, List.getElem?_eraseIdx]
  by_cases hk : k < i
  · rw [if_pos hk, if_neg (by omega : ¬ (i ≤ k ∧ k < i + (a.length - (i + 1)))),
      if_pos (by omega), if_pos (by omega)]
  · by_cases hlast : k < a.length - 1
    · rw [if_neg hk, if_pos hlast, if_pos (by omega : k + 1 < a.length), if_pos (by omega)]
    · rw [if_neg hk, if_neg hlast, if_neg (by omega)]

variable [DecidableEq α]

theorem removeFromArray_of_mem {a : DynArray α} {item : α} (h : item ∈ a.view) :
    removeFromArray a item = removeFromArrayIdx a (a.view.idxOf item) := by
  have hidx : a.view.idxOf? item = some (a.view.idxOf item) :=
    List.findIdx?_eq_some_of_exists ⟨item, h, by simp⟩
  rw [removeFromArray, hidx]

theorem idxOf_view_lt {a : DynArray α} {item : α} (h : item ∈ a.view) :
    a.view.idxOf item < a.length := by
  rw [← DynArray.length_view]
  exact List.idxOf_lt_length_of_mem h

theorem view_removeFromArray (a : DynArray α) (item : α) :
    (removeFromArray a item).view = a.view.erase item := by
  by_cases h : item ∈ a.view
  · rw [removeFromArray_of_mem h, view_removeFromArrayIdx (idxOf_view_lt h),
      List.erase_eq_eraseIdx_of_idxOf rfl]
  · have hnone : a.view.idxOf? item = none := List.idxOf?_eq_none_iff.mpr h
    rw [removeFromArray, hnone, List.erase_of_not_mem h]

end Removal

/-! ### The connection handler -/

/-- A `WebSocket` object. -/
abbrev Socket := ℕ

/-- The calls of `handleWebSocketConnection` at which tasks switch. -/
inductive Call where
  /-- `socket.waitForData(1.seconds)` -/
  | waitForName
  /-- the first `socket.receiveText` -/
  | receiveName
  /-- `listener.getResTask().send` -/
  | notify
  /-- `socket.send` of the text that refuses a null name -/
  | sendInvalid
  /-- `socket.close` after that text -/
  | closeInvalid
  /-- `socket.waitForData` -/
  | waitForData
  /-- `socket.receiveText` in the loop -/
  | receiveText
  /-- `socket.close` behind the loop -/
  | close
  deriving DecidableEq

/-- What a call returns: nothing that is used, the result of `waitForData`, or a text
that may be null. -/
inductive Answer where
  | done
  | available (b : Bool)
  | text (t : Option Text)
  deriving DecidableEq

/-- How the handler goes on: to its next call, or to its end by way of `removeFromArray`. -/
inductive Next where
  | call (c : Call)
  | leave
  deriving DecidableEq

/-- The handler between two calls; `connected` is the value of `socket.connected`. -/
def resume (connected : Bool) : Call → Answer → Option Next
  | .waitForName, .available _ => some (.call .receiveName)
  | .receiveName, .text (some _) => some (.call .notify)
  | .receiveName, .text none => some (.call .sendInvalid)
  | .notify, .done => some (.call .waitForData)
  | .sendInvalid, .done => some (.call .closeInvalid)
  | .closeInvalid, .done => some .leave
  | .waitForData, .available b =>
    -- the loop test, then `if (!socket.connected) break`
    if b ∧ connected then some (.call .receiveText) else some (.call .close)
  | .receiveText, .text t =>
    if t = some "/close".toList then some (.call .close) else some (.call .waitForData)
  | .close, .done => some .leave
  | _, _ => none

inductive Task where
  | idle
  | running (c : Call)
  | returned
  | failed
  deriving DecidableEq

/-- `connected` is vibe's property; `sentCloseFrame` makes `send` throw. -/
structure Server where
  sockets : DynArray Socket
  task : Socket → Task
  connected : Socket → Bool
  sentCloseFrame : Socket → Bool

def Server.start : Server := ⟨.empty, fun _ => .idle, fun _ => false, fun _ => false⟩

/-- The connection ends; a close frame is sent at most once, on an open connection. -/
def Server.disconnect (srv : Server) (s : Socket) (closeFrame : Bool) : Server :=
  { srv with
    connected := Function.update srv.connected s false
    sentCloseFrame := Function.update srv.sentCloseFrame s
      (srv.sentCloseFrame s || closeFrame && srv.connected s) }

def Server.setTask (srv : Server) (s : Socket) (k : Task) : Server :=
  { srv with task := Function.update srv.task s k }

/-- A handler starts: `sockets ~= socket`, and on to the first call. -/
def Server.accept (srv : Server) (s : Socket) (room : Bool) : Server :=
  { srv with
    sockets := srv.sockets.push s room
    task := Function.update srv.task s (.running .waitForName)
    connected := Function.update srv.connected s true }

def Call.closes : Call → Bool
  | .close | .closeInvalid => true
  | _ => false

/-- The handler reaches a call; `socket.close` sets the close frame before it waits. -/
def Server.enter (srv : Server) (s : Socket) (c : Call) : Server :=
  if c.closes then (srv.setTask s (.running c)).disconnect s true else srv.setTask s (.running c)

/-- `sockets.removeFromArray(socket)`, and the handler returns. -/
def Server.leave (srv : Server) (s : Socket) : Server :=
  { srv.setTask s .returned with sockets := removeFromArray srv.sockets s }

/-- An exception ends the handler; vibe logs it and closes the socket. -/
def Server.fail (srv : Server) (s : Socket) : Server := (srv.setTask s .failed).disconnect s true

inductive Event where
  | accept (s : Socket) (room : Bool)
  /-- the peer leaves, with or without a close frame -/
  | hangUp (s : Socket) (closeFrame : Bool)
  | answer (s : Socket) (a : Answer)
  | throws (s : Socket)
  deriving DecidableEq

def Server.step (srv : Server) : Event → Option Server
  | .accept s room => if srv.task s = .idle then some (srv.accept s room) else none
  | .hangUp s closeFrame => some (srv.disconnect s closeFrame)
  | .answer s a =>
    match srv.task s with
    | .running c => (resume (srv.connected s) c a).map fun
      | .call next => srv.enter s next
      | .leave => srv.leave s
    | _ => none
  | .throws s =>
    match srv.task s with
    | .running _ => some (srv.fail s)
    | _ => none

/-- Everything a step of the server can do. -/
theorem Server.step_cases {srv t : Server} {e : Event} (h : srv.step e = some t) :
    (∃ s room, e = .accept s room ∧ srv.task s = .idle ∧ t = srv.accept s room) ∨
    (∃ s closeFrame, e = .hangUp s closeFrame ∧ t = srv.disconnect s closeFrame) ∨
    (∃ s a c next, e = .answer s a ∧ srv.task s = .running c ∧
      resume (srv.connected s) c a = some (.call next) ∧ t = srv.enter s next) ∨
    (∃ s a c, e = .answer s a ∧ srv.task s = .running c ∧
      resume (srv.connected s) c a = some .leave ∧ t = srv.leave s) ∨
    (∃ s c, e = .throws s ∧ srv.task s = .running c ∧ t = srv.fail s) := by
  cases e with
  | accept s room =>
    simp only [Server.step] at h
    split_ifs at h with hidle
    cases h
    exact .inl ⟨s, room, rfl, hidle, rfl⟩
  | hangUp s closeFrame =>
    cases h
    exact .inr (.inl ⟨s, closeFrame, rfl, rfl⟩)
  | answer s a =>
    simp only [Server.step] at h
    cases hc : srv.task s with
    | running c =>
      rw [hc] at h
      obtain ⟨next, hnext, ht⟩ := Option.map_eq_some_iff.mp h
      cases next with
      | call next => exact .inr (.inr (.inl ⟨s, a, c, next, rfl, hc, hnext, ht.symm⟩))
      | leave => exact .inr (.inr (.inr (.inl ⟨s, a, c, rfl, hc, hnext, ht.symm⟩)))
    | idle | returned | failed => rw [hc] at h; cases h
  | throws s =>
    simp only [Server.step] at h
    cases hc : srv.task s with
    | running c =>
      rw [hc] at h
      cases h
      exact .inr (.inr (.inr (.inr ⟨s, c, rfl, hc, rfl⟩)))
    | idle | returned | failed => rw [hc] at h; cases h

/-- The handler leaves only from a close. -/
theorem closes_of_resume_leave {connected : Bool} {c : Call} {a : Answer}
    (h : resume connected c a = some .leave) : c.closes := by
  unfold resume at h
  split at h
  case h_6 | h_9 => rfl
  case h_7 | h_8 => split_ifs at h <;> cases h
  all_goals cases h

/-! The fields after each operation. -/

namespace Server
variable (srv : Server) (s x : Socket)

@[simp] theorem task_disconnect (closeFrame : Bool) :
    (srv.disconnect s closeFrame).task = srv.task := rfl

@[simp] theorem connected_disconnect (closeFrame : Bool) :
    (srv.disconnect s closeFrame).connected x = if x = s then false else srv.connected x :=
  Function.update_apply _ _ _ _

@[simp] theorem task_setTask (k : Task) :
    (srv.setTask s k).task x = if x = s then k else srv.task x := Function.update_apply _ _ _ _

@[simp] theorem connected_setTask (k : Task) : (srv.setTask s k).connected = srv.connected := rfl

@[simp] theorem task_accept (room : Bool) :
    (srv.accept s room).task x = if x = s then .running .waitForName else srv.task x :=
  Function.update_apply _ _ _ _

@[simp] theorem connected_accept (room : Bool) :
    (srv.accept s room).connected x = if x = s then true else srv.connected x :=
  Function.update_apply _ _ _ _

@[simp] theorem sockets_enter (c : Call) : (srv.enter s c).sockets = srv.sockets := by
  unfold enter
  split_ifs <;> rfl

@[simp] theorem task_enter (c : Call) :
    (srv.enter s c).task x = if x = s then .running c else srv.task x := by
  unfold enter
  split_ifs <;> simp [*]

@[simp] theorem connected_enter (c : Call) :
    (srv.enter s c).connected x = if x = s ∧ c.closes then false else srv.connected x := by
  unfold enter
  split_ifs <;> simp_all

@[simp] theorem task_leave : (srv.leave s).task x = if x = s then .returned else srv.task x :=
  Function.update_apply _ _ _ _

@[simp] theorem sockets_fail : (srv.fail s).sockets = srv.sockets := rfl

@[simp] theorem task_fail : (srv.fail s).task x = if x = s then .failed else srv.task x :=
  Function.update_apply _ _ _ _

@[simp] theorem connected_fail :
    (srv.fail s).connected x = if x = s then false else srv.connected x :=
      Function.update_apply _ _ _ _

end Server

/-! ### The list of open sockets -/

/-- The task is in a call of `socket.close`, from where its handler leaves. -/
def Task.closes : Task → Bool
  | .running c => c.closes
  | _ => false

/-- How often the socket of a task is in the list. -/
def Task.listed : Task → ℕ
  | .running _ | .failed => 1
  | .idle | .returned => 0

/-- What holds in every state: where each socket is listed, and that a handler which is
about to leave has closed its socket. -/
structure Server.Inv (srv : Server) : Prop where
  count : ∀ s, srv.sockets.view.count s = (srv.task s).listed
  closing : ∀ s, (srv.task s).closes → srv.connected s = false

theorem Server.inv_start : Server.start.Inv := by
  refine ⟨fun s => rfl, fun s h => ?_⟩
  cases h

theorem Server.count_step {srv t : Server} {e : Event} (h : srv.step e = some t) (hs : srv.Inv)
    (x : Socket) : t.sockets.view.count x = (t.task x).listed := by
  have hx := hs.count x
  obtain ⟨s, room, -, hidle, rfl⟩ | ⟨s, _, -, rfl⟩ | ⟨s, _, c, _, -, hrun, -, rfl⟩ |
    ⟨s, _, c, -, hrun, -, rfl⟩ | ⟨s, c, -, hrun, rfl⟩ := step_cases h
  · rw [Server.accept, DynArray.view_push, List.count_append, hx]
    by_cases hxs : x = s
    · subst hxs
      simp [hidle, Task.listed]
    · simp [hxs, Ne.symm hxs]
  · exact hx
  · rw [sockets_enter, task_enter, hx]
    split_ifs with hxs
    · rw [hxs, hrun, Task.listed, Task.listed]
    · rfl
  · rw [Server.leave, view_removeFromArray]
    by_cases hxs : x = s
    · subst hxs
      simp [hx, hrun, Task.listed]
    · simp [List.count_erase_of_ne hxs, hx, hxs]
  · rw [sockets_fail, task_fail, hx]
    split_ifs with hxs
    · rw [hxs, hrun, Task.listed, Task.listed]
    · rfl

theorem Server.closing_step {srv t : Server} {e : Event} (h : srv.step e = some t) (hs : srv.Inv)
    (x : Socket) (hx : (t.task x).closes) : t.connected x = false := by
  obtain ⟨s, _, -, -, rfl⟩ | ⟨s, _, -, rfl⟩ | ⟨s, _, _, c, -, -, -, rfl⟩ | ⟨s, _, _, -, -, -, rfl⟩ |
    ⟨s, _, -, -, rfl⟩ := step_cases h
  · rw [task_accept] at hx
    rw [connected_accept]
    split_ifs at hx ⊢
    · cases hx
    · exact hs.closing x hx
  · rw [connected_disconnect]
    split_ifs
    · rfl
    · exact hs.closing x hx
  · rw [task_enter] at hx
    rw [connected_enter]
    by_cases hxs : x = s
    · rw [if_pos hxs] at hx
      rw [if_pos ⟨hxs, hx⟩]
    · rw [if_neg hxs] at hx
      rw [if_neg fun h => hxs h.1]
      exact hs.closing x hx
  · rw [task_leave] at hx
    split_ifs at hx
    · cases hx
    · exact hs.closing x hx
  · rw [task_fail] at hx
    split_ifs at hx with hxs
    · cases hx
    · rw [connected_fail, if_neg hxs]
      exact hs.closing x hx

theorem Server.inv_step (srv : Server) (e : Event) (t : Server) (h : srv.step e = some t)
    (hs : srv.Inv) : t.Inv := ⟨count_step h hs, closing_step h hs⟩

theorem Server.Inv.count_eq_one {srv : Server} (h : srv.Inv) {x : Socket}
    (hx : x ∈ srv.sockets.view) : srv.sockets.view.count x = 1 := by
  have hpos := List.count_pos_iff.mpr hx
  rw [h.count] at hpos ⊢
  cases hk : srv.task x with
  | running c | failed => rfl
  | idle | returned => rw [hk] at hpos; cases hpos

/-- A handler that is about to leave finds its socket. -/
theorem Server.Inv.mem_view {srv : Server} (h : srv.Inv) {x : Socket} (hx : (srv.task x).closes) :
    x ∈ srv.sockets.view := by
  have hcount := h.count x
  cases hk : srv.task x with
  | running c =>
    rw [hk, Task.listed] at hcount
    exact List.count_pos_iff.mp (by omega)
  | idle | returned | failed => rw [hk] at hx; cases hx

/-- What a step does to the array. -/
theorem Server.sockets_step {srv t : Server} {e : Event} (h : srv.step e = some t) :
    t.sockets = srv.sockets ∨
    (∃ s room, srv.task s = .idle ∧ t.sockets = srv.sockets.push s room) ∨
    (∃ s a, e = .answer s a ∧ (srv.task s).closes ∧ t.sockets = removeFromArray srv.sockets s) := by
  obtain ⟨s, room, -, hidle, rfl⟩ | ⟨s, _, -, rfl⟩ | ⟨s, _, _, c, -, -, -, rfl⟩ |
    ⟨s, a, c, rfl, hrun, hleave, rfl⟩ | ⟨s, _, -, -, rfl⟩ := step_cases h
  · exact .inr (.inl ⟨s, room, hidle, rfl⟩)
  · exact .inl rfl
  · exact .inl (sockets_enter srv s c)
  · refine .inr (.inr ⟨s, a, rfl, ?_, rfl⟩)
    rw [hrun]
    exact closes_of_resume_leave hleave
  · exact .inl rfl

theorem Server.started_step {srv t : Server} {e : Event} (h : srv.step e = some t) {x : Socket}
    (hx : srv.task x ≠ .idle) : t.task x ≠ .idle := by
  obtain ⟨s, _, -, -, rfl⟩ | ⟨s, _, -, rfl⟩ | ⟨s, _, _, c, -, -, -, rfl⟩ | ⟨s, _, _, -, -, -, rfl⟩ |
    ⟨s, _, -, -, rfl⟩ := step_cases h
  · rw [task_accept]; split_ifs <;> simp [hx]
  · exact hx
  · rw [task_enter]; split_ifs <;> simp [hx]
  · rw [task_leave]; split_ifs <;> simp [hx]
  · rw [task_fail]; split_ifs <;> simp [hx]

/-- A connection that was started and has ended stays ended. -/
theorem Server.connected_of_step {srv t : Server} {e : Event} (h : srv.step e = some t) {x : Socket}
    (hx : srv.task x ≠ .idle) (hconn : t.connected x) : srv.connected x := by
  obtain ⟨s, _, -, hidle, rfl⟩ | ⟨s, _, -, rfl⟩ | ⟨s, _, _, c, -, -, -, rfl⟩ |
    ⟨s, _, _, -, -, -, rfl⟩ |
    ⟨s, _, -, -, rfl⟩ := step_cases h
  · have hxs : x ≠ s := fun hxs => hx (hxs ▸ hidle)
    rwa [connected_accept, if_neg hxs] at hconn
  · rw [connected_disconnect] at hconn
    split_ifs at hconn
    exact hconn
  · rw [connected_enter] at hconn
    split_ifs at hconn
    exact hconn
  · exact hconn
  · rw [connected_fail] at hconn
    split_ifs at hconn
    exact hconn

/-- The list holds the socket of every running task once and that of no ended task. -/
structure Tracks (srv : Server) : Prop where
  running : ∀ s c, srv.task s = .running c → srv.sockets.view.count s = 1
  returned : ∀ s, srv.task s = .returned → s ∉ srv.sockets.view
  failed : ∀ s, srv.task s = .failed → s ∉ srv.sockets.view

theorem Server.Inv.tracks_iff_noneFailed {srv : Server} (h : srv.Inv) :
    Tracks srv ↔ ∀ s, srv.task s ≠ .failed := by
  constructor
  · intro ht s hs
    have hone := h.count s
    rw [hs, Task.listed, List.count_eq_zero.mpr (ht.failed s hs)] at hone
    cases hone
  · intro hnot
    refine ⟨fun s c hs => ?_, fun s hs => ?_, fun s hs => absurd hs (hnot s)⟩
    · rw [h.count, hs, Task.listed]
    · rw [← List.count_eq_zero, h.count, hs, Task.listed]

/-- A task fails by an exception, and then stays failed. -/
theorem Server.failed_step {srv t : Server} {e : Event} (h : srv.step e = some t) (x : Socket) :
    t.task x = .failed ↔ srv.task x = .failed ∨ e = .throws x := by
  obtain ⟨s, _, rfl, hs, rfl⟩ | ⟨s, _, rfl, rfl⟩ | ⟨s, _, _, _, rfl, hs, -, rfl⟩ |
    ⟨s, _, _, rfl, hs, -, rfl⟩ | ⟨s, _, rfl, hs, rfl⟩ := step_cases h
  · by_cases hxs : x = s <;> simp [hxs, hs]
  · simp
  · by_cases hxs : x = s <;> simp [hxs, hs]
  · by_cases hxs : x = s <;> simp [hxs, hs]
  · by_cases hxs : x = s
    · simp [hxs]
    · simp [hxs, Ne.symm hxs]

theorem Server.noneFailed_step (srv : Server) (e : Event) (t : Server) (h : srv.step e = some t) :
    (∀ x, t.task x ≠ .failed) ↔ (∀ x, srv.task x ≠ .failed) ∧ ∀ x, e ≠ .throws x := by
  simp only [ne_eq, failed_step h, not_or, forall_and]

/-- The list tracks the tasks exactly in the runs in which no call throws. -/
theorem tracks_iff (events : List Event) (srv : Server)
    (hrun : Transition.run Server.step .start events = some srv) :
    Tracks srv ↔ ∀ s, .throws s ∉ events := by
  have hinv : srv.Inv :=
    Transition.run_always Server.Inv Server.inv_step events hrun Server.inv_start
  have hstart : ∀ x, Server.start.task x ≠ .failed := fun x => by simp [Server.start]
  rw [hinv.tracks_iff_noneFailed, Transition.run_iff (fun _ => True)
    (fun srv : Server => ∀ x, srv.task x ≠ .failed) (fun _ _ _ _ _ => trivial)
    (fun srv e t h _ => Server.noneFailed_step srv e t h) events hrun trivial,
    and_iff_right hstart, Transition.along_iff_forall events hrun]
  exact ⟨fun h s hs => h _ hs s rfl, fun h e he s hes => h s (hes ▸ he)⟩

/-- One client connects, sends its name and a closing text, and is gone. -/
theorem tracks_closed : ∃ srv, Transition.run Server.step .start
    [.accept 0 false, .answer 0 (.available true), .answer 0 (.text (some "owl".toList)),
      .answer 0 .done, .answer 0 (.available true), .answer 0 (.text (some "/close".toList)),
      .answer 0 .done] = some srv ∧ Tracks srv := by
  refine Exists.imp (fun srv h => ⟨h, (tracks_iff _ srv h).mpr ?_⟩)
    (Option.isSome_iff_exists.mp rfl)
  simp

/-- A client that leaves before it has sent its name: `receiveText` throws, and the socket
of the ended task stays in the list. -/
theorem not_tracks_nameless : ∃ srv, Transition.run Server.step .start
    [.accept 0 false, .hangUp 0 true, .answer 0 (.available false), .throws 0] = some srv ∧
      ¬ Tracks srv := by
  refine ⟨_, rfl, fun h => ?_⟩
  exact h.failed 0 rfl (by decide)

end Owlchain.Ui
