import CrosKernel.Lib.RingBuffer
import CrosKernel.Lib.Run
import Mathlib.Data.List.TakeDrop

/-!
# The receive buffer of the UART

`UART::readByte` and `UARTContext` of `src/devices/uart.cpp`. The device writes every byte it
receives into a ring of `bufferSize` cells, and each open context reads from it at a position of
its own. Nothing stops the device from overwriting a byte that some context has not read: a
context that falls `bufferSize` bytes behind never learns of it.

A `Session` is the device with its contexts and their history: the bytes that have arrived, and
for each context the count of bytes before the first one it is to receive and the bytes it has
received. `session_receives` says that a context that keeps up receives what arrived.
-/

namespace CrosKernel.Devices

open Lib

/-- `UART::bufferSize`. -/
def bufferSize : Nat := 4096

/-- The members of `UART` that receiving uses. The array `buffer` is a total map; its index stays
below `bufferSize`. -/
structure UART where
  buffer : Nat → UInt8
  bufferIndex : Nat

/-- The members of `UARTContext` besides the reference to the device. -/
structure UARTContext where
  pos : Nat

/-- A position moved by one, in `readByte` and `read`. -/
def nextPos (i : Nat) : Nat :=
  if i + 1 ≥ bufferSize then 0 else i + 1

namespace UART

/-- A device as its constructors build it. Their call of `memset` has the count and the value in
the wrong order and writes nothing, so the array holds what it held before. -/
def init (buffer : Nat → UInt8) : UART where
  buffer := buffer
  bufferIndex := 0

/-- The body of the loop of `readByte`, for the byte read from the data register. -/
def receive (u : UART) (byte : UInt8) : UART where
  buffer := Function.update u.buffer u.bufferIndex byte
  bufferIndex := nextPos u.bufferIndex

/-- `UART::readByte`, where `bytes` are what the data register gives until the flag register says
that the receive FIFO is empty. -/
def readByte (u : UART) : List UInt8 → UART
  | [] => u
  | byte :: rest => readByte (u.receive byte) rest

end UART

namespace UARTContext

/-- `UARTContext::UARTContext(uart)`, as `UART::open` calls it. -/
def new (u : UART) : UARTContext where
  pos := u.bufferIndex

/-- The loop of `UARTContext::read` with so many bytes still to read at most. -/
def readLoop (u : UART) (f : UARTContext) : Nat → UARTContext × List UInt8
  | 0 => (f, [])
  | n + 1 =>
      if f.pos = u.bufferIndex then (f, [])
      else
        let (f', bytes) := readLoop u ⟨nextPos f.pos⟩ n
        (f', u.buffer f.pos :: bytes)

/-- `UARTContext::read(buffer, n)`, returning the bytes written to `buffer`; their number is the
result of the call. No byte is read for a negative `n`. -/
def read (u : UART) (f : UARTContext) (n : Int) : UARTContext × List UInt8 :=
  readLoop u f n.toNat

/-- `UARTContext::copy`: a new context, moved to the position of this one. -/
def copy (u : UART) (f : UARTContext) : UARTContext :=
  { new u with pos := f.pos }

end UARTContext

/-! ## Readers of a log -/

namespace UART

/-- The device has received `arrived`, and holds the end of it. -/
def Received (u : UART) (arrived : List UInt8) : Prop :=
  RingBuffer.Logs bufferSize u.buffer u.bufferIndex arrived

variable {u : UART} {arrived : List UInt8}

theorem init_received (buffer : Nat → UInt8) : (init buffer).Received [] :=
  RingBuffer.logs_nil

/-- The bytes of one call of `readByte` arrive in their order. -/
theorem Received.readByte (h : u.Received arrived) (bytes : List UInt8) :
    (u.readByte bytes).Received (arrived ++ bytes) := by
  induction bytes generalizing u arrived with
  | nil => simpa [UART.readByte] using h
  | cons byte rest ih =>
      have hone : (u.receive byte).Received (arrived ++ [byte]) :=
        RingBuffer.Logs.push (show 0 < 4096 by decide) h byte
      simpa [UART.readByte] using ih hone

end UART

namespace UARTContext

variable {u : UART} {f : UARTContext} {arrived : List UInt8}

/-- The context has come past the first `k` of the bytes that arrived. -/
def At (f : UARTContext) (k : Nat) (arrived : List UInt8) : Prop :=
  k ≤ arrived.length ∧ f.pos = k % bufferSize

theorem new_at (h : u.Received arrived) : (new u).At arrived.length arrived :=
  ⟨Nat.le_refl _, h.write_eq⟩

theorem nextPos_mod (k : Nat) : nextPos (k % bufferSize) = (k + 1) % bufferSize :=
  RingBuffer.advance_mod (show 0 < 4096 by decide) k

/-- A context that has read all but a few bytes reads the next ones of them. -/
theorem readLoop_behind {k : Nat} (h : u.Received arrived) (hf : f.At k arrived)
    (hbehind : arrived.length - k < bufferSize) (n : Nat) :
    (readLoop u f n).2 = (arrived.drop k).take n ∧
      (readLoop u f n).1.At (k + (readLoop u f n).2.length) arrived := by
  induction n generalizing f k with
  | zero => simpa [readLoop] using hf
  | succ n ih =>
      obtain ⟨hk, hpos⟩ := hf
      by_cases hlast : k = arrived.length
      · -- nothing is left to read, and the positions agree
        have hstop : f.pos = u.bufferIndex := by rw [hpos, hlast, h.write_eq]
        simp [readLoop, hstop, hlast, At, h.write_eq]
      · have hlt : k < arrived.length := by omega
        have hgo : f.pos ≠ u.bufferIndex := by
          rw [hpos, h.write_eq]
          exact RingBuffer.mod_ne hlt (by omega)
        have hbyte : arrived[k] = u.buffer f.pos := by
          have hcell := h.cells_eq k hlt (by omega)
          rw [List.getElem?_eq_getElem hlt, Option.some.injEq] at hcell
          rw [hcell, hpos]
        have hnext : At ⟨nextPos f.pos⟩ (k + 1) arrived :=
          ⟨hlt, by rw [hpos]; exact nextPos_mod k⟩
        obtain ⟨hbytes, hat⟩ := ih hnext (by omega)
        simp only [readLoop, hgo, if_false, List.length_cons]
        refine ⟨?_, by rwa [show k + ((readLoop u ⟨nextPos f.pos⟩ n).2.length + 1) =
          k + 1 + (readLoop u ⟨nextPos f.pos⟩ n).2.length by omega]⟩
        rw [hbytes, List.drop_eq_getElem_cons hlt, List.take_succ_cons, hbyte]

/-- A context that was overtaken stops `bufferSize` bytes, or a multiple of that, before the last
byte that arrived: it does not catch up by reading. -/
theorem readLoop_overtaken {k : Nat} (h : u.Received arrived) (hf : f.At k arrived)
    (hover : bufferSize ≤ arrived.length - k) (n : Nat) :
    (readLoop u f n).1.At (k + (readLoop u f n).2.length) arrived ∧
      bufferSize ≤ arrived.length - (k + (readLoop u f n).2.length) := by
  induction n generalizing f k with
  | zero => exact ⟨hf, hover⟩
  | succ n ih =>
      obtain ⟨hk, hpos⟩ := hf
      by_cases hstop : f.pos = u.bufferIndex
      · simpa [readLoop, hstop, At] using ⟨⟨hk, hstop ▸ hpos⟩, hover⟩
      · have hmore : bufferSize < arrived.length - k := by
          refine Nat.lt_of_le_of_ne hover fun heq => hstop ?_
          rw [hpos, h.write_eq, show arrived.length = k + bufferSize by omega,
            Nat.add_mod_right]
        have hnext : At ⟨nextPos f.pos⟩ (k + 1) arrived :=
          ⟨by omega, by rw [hpos]; exact nextPos_mod k⟩
        simp only [readLoop, hstop, if_false, List.length_cons]
        rw [show k + ((readLoop u ⟨nextPos f.pos⟩ n).2.length + 1) =
          k + 1 + (readLoop u ⟨nextPos f.pos⟩ n).2.length by omega]
        exact ih hnext (by omega)

end UARTContext

/-! ## Interleaved calls -/

/-- A context with what it is to receive and has received. The bytes for it are the ones that
arrived after the first `opened`. -/
structure Client where
  context : UARTContext
  opened : Nat
  received : List UInt8

namespace Client

/-- The number of bytes that arrived up to the last one the context has received. -/
def position (c : Client) : Nat := c.opened + c.received.length

/-- The bytes that arrived for the context and that it has not received. -/
def unread (c : Client) (arrived : List UInt8) : List UInt8 := arrived.drop c.position

end Client

/-- The device, its contexts by their addresses, and the bytes that have arrived. -/
structure Session where
  uart : UART
  clients : Nat → Option Client
  arrived : List UInt8

/-- The calls on the device and its contexts. -/
inductive UARTOp where
  | readByte (bytes : List UInt8)
  | openContext (id : Nat)
  | copy (id id' : Nat)
  | read (id : Nat) (n : Int)
  | close (id : Nat)

namespace Session

/-- A device before any call. -/
def init (buffer : Nat → UInt8) : Session where
  uart := .init buffer
  clients _ := none
  arrived := []

/-- The session with another client at an address. -/
def setClient (s : Session) (id : Nat) (c : Option Client) : Session :=
  { s with clients := Function.update s.clients id c }

/-- One call. A new context gets an address that is not in use. A copy is to receive what its
original had still to receive. -/
inductive Step : Session → UARTOp → Session → Prop where
  | readByte (s : Session) (bytes : List UInt8) :
      Step s (.readByte bytes)
        { s with uart := s.uart.readByte bytes, arrived := s.arrived ++ bytes }
  | openContext (s : Session) (id : Nat) (hid : s.clients id = none) :
      Step s (.openContext id)
        (s.setClient id (some ⟨.new s.uart, s.arrived.length, []⟩))
  | copy (s : Session) (id id' : Nat) (c : Client) (hid : s.clients id = some c)
      (hid' : s.clients id' = none) :
      Step s (.copy id id')
        (s.setClient id' (some ⟨c.context.copy s.uart, c.position, []⟩))
  | read (s : Session) (id : Nat) (n : Int) (c : Client) (hid : s.clients id = some c) :
      Step s (.read id n)
        (s.setClient id (some
          { c with
            context := (c.context.read s.uart n).1
            received := c.received ++ (c.context.read s.uart n).2 }))
  | close (s : Session) (id : Nat) (c : Client) (hid : s.clients id = some c) :
      Step s (.close id) (s.setClient id none)

end Session

namespace Client

/-- The context stands where its history says, and unless it was overtaken it has received what
arrived for it. -/
structure Follows (c : Client) (arrived : List UInt8) : Prop where
  context_at : c.context.At c.position arrived
  received_eq : (c.unread arrived).length < bufferSize →
    c.received ++ c.unread arrived = arrived.drop c.opened

variable {c : Client} {u : UART} {arrived : List UInt8}

theorem length_unread : (c.unread arrived).length = arrived.length - c.position :=
  List.length_drop

/-- A context that has received nothing. -/
theorem follows_nil {f : UARTContext} {k : Nat} (hf : f.At k arrived) :
    Follows ⟨f, k, []⟩ arrived where
  context_at := hf
  received_eq _ := rfl

/-- More bytes arrive, for this context too. -/
theorem Follows.arrive (h : c.Follows arrived) (bytes : List UInt8) :
    c.Follows (arrived ++ bytes) where
  context_at := by
    obtain ⟨hle, hpos⟩ := h.context_at
    exact ⟨by rw [List.length_append]; omega, hpos⟩
  received_eq hunread := by
    have hle : c.position ≤ arrived.length := h.context_at.1
    have hopened : c.opened ≤ arrived.length := Nat.le_trans (Nat.le_add_right _ _) hle
    have hunread' : c.unread (arrived ++ bytes) = c.unread arrived ++ bytes :=
      List.drop_append_of_le_length hle
    rw [hunread', List.length_append] at hunread
    rw [hunread', ← List.append_assoc, h.received_eq (by omega),
      List.drop_append_of_le_length hopened]

/-- Reading, with the number of bytes in the words of the loop. -/
theorem Follows.read (hu : u.Received arrived) (h : c.Follows arrived) (n : Int) :
    Follows ⟨(c.context.read u n).1, c.opened, c.received ++ (c.context.read u n).2⟩ arrived := by
  obtain ⟨hat, hreceived⟩ := h
  have hposition : ∀ f bytes, position ⟨f, c.opened, c.received ++ bytes⟩ =
      c.position + bytes.length := by
    intro f bytes
    simp only [position, List.length_append]
    omega
  unfold UARTContext.read
  by_cases hbehind : arrived.length - c.position < bufferSize
  · obtain ⟨hbytes, hat'⟩ := UARTContext.readLoop_behind hu hat hbehind n.toNat
    refine ⟨by rw [hposition]; exact hat', fun _ => ?_⟩
    rw [← hreceived (by rwa [length_unread]), unread, hposition, ← List.drop_drop, hbytes,
      List.append_assoc]
    congr 1
    -- the bytes read are a first part of the unread ones
    rw [List.length_take, ← List.drop_eq_drop_min]
    exact List.take_append_drop _ _
  · obtain ⟨hat', hover⟩ := UARTContext.readLoop_overtaken hu hat (by omega) n.toNat
    refine ⟨by rw [hposition]; exact hat', fun hunread => ?_⟩
    rw [length_unread, hposition] at hunread
    omega

end Client

namespace Session

/-- Device and contexts agree with the history. -/
structure Consistent (s : Session) : Prop where
  received : s.uart.Received s.arrived
  follows : ∀ id c, s.clients id = some c → c.Follows s.arrived

theorem init_consistent (buffer : Nat → UInt8) : (init buffer).Consistent where
  received := UART.init_received buffer
  follows _ _ hc := nomatch hc

/-- Changing one client concerns no other one. -/
theorem Consistent.setClient {s : Session} (h : s.Consistent) (id : Nat) {c : Option Client}
    (hc : ∀ d, c = some d → d.Follows s.arrived) : (s.setClient id c).Consistent where
  received := h.received
  follows id' d hd := by
    by_cases hid : id' = id
    · subst hid
      exact hc d (by simpa [Session.setClient] using hd)
    · exact h.follows id' d (by simpa [Session.setClient, hid] using hd)

/-- Every call keeps device, contexts and history in agreement. -/
theorem Consistent.step {s s' : Session} {op : UARTOp} (h : s.Consistent) (hstep : Step s op s') :
    s'.Consistent := by
  cases hstep with
  | readByte bytes =>
      exact ⟨h.received.readByte bytes, fun id c hc => (h.follows id c hc).arrive bytes⟩
  | openContext id hid =>
      refine h.setClient id fun d hd => ?_
      cases hd
      exact Client.follows_nil (UARTContext.new_at h.received)
  | copy id id' c hid hid' =>
      refine h.setClient id' fun d hd => ?_
      cases hd
      exact Client.follows_nil (h.follows id c hid).context_at
  | read id n c hid =>
      refine h.setClient id fun d hd => ?_
      cases hd
      exact (h.follows id c hid).read h.received n
  | close id c hid => exact h.setClient id fun d hd => nomatch hd

/-- In every interleaving of calls a context with at most `bufferSize - 1` unread bytes has
received the bytes that arrived for it up to the unread ones, in their order and each once, and a
read gives it the next ones. The bound is asked for in the last state only; a context that never
had more unread bytes meets it. -/
theorem session_receives {buffer : Nat → UInt8} {ops : List UARTOp} {s : Session}
    {c : Client} (id : Nat) (h : Run Step (init buffer) ops s) (hc : s.clients id = some c)
    (hunread : (c.unread s.arrived).length ≤ bufferSize - 1) :
    c.received ++ c.unread s.arrived = s.arrived.drop c.opened ∧
      ∀ n, (c.context.read s.uart n).2 = (c.unread s.arrived).take n.toNat := by
  have hconsistent : s.Consistent :=
    h.invariant (init_consistent buffer) fun _ _ _ hs hstep => hs.step hstep
  have hfollows := hconsistent.follows id c hc
  have hlt : (c.unread s.arrived).length < bufferSize := by
    simp only [bufferSize] at hunread ⊢
    omega
  refine ⟨hfollows.received_eq hlt, fun n => ?_⟩
  rw [Client.length_unread] at hlt
  exact (UARTContext.readLoop_behind hconsistent.received hfollows.context_at hlt n.toNat).1

/-- A copy made after the first of three bytes was read receives the other two. -/
theorem session_receives_copy :
    ∃ s c, Run Step (init fun _ => 0)
        [.openContext 0, .readByte [1, 2, 3], .read 0 1, .copy 0 1, .read 1 5] s ∧
      s.clients 1 = some c ∧ c.received = [2, 3] ∧
      c.received ++ c.unread s.arrived = s.arrived.drop c.opened ∧
      ∀ n, (c.context.read s.uart n).2 = (c.unread s.arrived).take n.toNat := by
  have hrun := Run.cons (Step.openContext (init fun _ => 0) 0 rfl) <|
    .cons (.readByte _ [1, 2, 3]) <| .cons (.read _ 0 1 ⟨⟨0⟩, 0, []⟩ rfl) <|
    .cons (.copy _ 0 1 ⟨⟨1⟩, 0, [1]⟩ rfl rfl) <| .single (.read _ 1 5 ⟨⟨1⟩, 1, []⟩ rfl)
  exact ⟨_, ⟨⟨3⟩, 1, [2, 3]⟩, hrun, rfl, rfl, session_receives 1 hrun rfl (by decide)⟩

end Session

end CrosKernel.Devices
