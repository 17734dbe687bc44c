import JanusRT.Structs
import JanusRT.Lib.SlotWindow

/-!
# The request ring

`mpsc_ring` of `mailbox.h`, `mpsc_push` of the Linux module, `mpsc_pop` of the
real-time side, and the part of `rtcore_sched_prog` that pushes a request and pends
the interrupt under `sched_lock`. Every access to the ring is one step; a program
counter records where each side is between two accesses.
-/
namespace JanusRT

/-- `TOJRT_SIZE`. -/
def tojrtSize : ℕ := 1 <<< 12

/-- `TOJRT_MASK`. -/
def tojrtMask : ℕ := tojrtSize - 1

/-- `jrt_sched_req_t`. -/
structure SchedReq where
  pc : ℕ
  progSize : ℕ
  memReq : ℕ
  deriving DecidableEq, Repr

/-- `struct mpsc_ring`, over any kind of record. The indices of the two arrays are
below `TOJRT_SIZE`. -/
structure MpscRing (R : Type) where
  head : ℕ
  tail : ℕ
  flags : ℕ → Bool
  data : ℕ → R

variable {P R : Type}

/-- `ipc_init` leaves the payloads as they are. -/
def ipcInit (r : MpscRing R) : MpscRing R :=
  { r with head := 0, tail := 0, flags := fun _ => false }

/-! ## Both ends of the ring -/

/-- `EAGAIN`. -/
def eagain : ℤ := 11

/-- The next access of a running `mpsc_push`. -/
inductive PushPc (R : Type)
  | claim (req : R)
  | spin (req : R) (idx : ℕ)
  | copy (req : R) (idx : ℕ)
  | publish (req : R) (idx : ℕ)
  deriving DecidableEq, Repr

/-- One access of `mpsc_push`. It has returned on the right. -/
def mpscPush (tryOnly : Bool) (r : MpscRing R) : PushPc R → MpscRing R × (PushPc R ⊕ ℤ)
  | .claim req =>
    ({ r with head := (r.head + 1) % u32 }, .inl (.spin req (r.head &&& tojrtMask)))
  | .spin req idx =>
    (r, if r.flags idx then
        if tryOnly then .inr (-eagain) else .inl (.spin req idx)
      else .inl (.copy req idx))
  | .copy req idx => ({ r with data := Function.update r.data idx req }, .inl (.publish req idx))
  | .publish _ idx => ({ r with flags := Function.update r.flags idx true }, .inr 0)

/-- The next access of a running `mpsc_pop`. -/
inductive PopPc (R : Type)
  | start
  | load (tail : ℕ)
  | copy (tail : ℕ)
  | clear (tail : ℕ) (out : R)
  | advance (tail : ℕ) (out : R)
  deriving DecidableEq, Repr

/-- One access of `mpsc_pop`. It has returned on the right, with a record or with
the error for an empty ring. -/
def mpscPop (r : MpscRing R) : PopPc R → MpscRing R × (PopPc R ⊕ Option R)
  | .start => (r, .inl (.load r.tail))
  | .load tail =>
    (r, if r.flags (tail &&& tojrtMask) then .inl (.copy tail) else .inr none)
  | .copy tail => (r, .inl (.clear tail (r.data (tail &&& tojrtMask))))
  | .clear tail out =>
    ({ r with flags := Function.update r.flags (tail &&& tojrtMask) false },
      .inl (.advance tail out))
  | .advance tail out => ({ r with tail := (tail + 1) % u32 }, .inr (some out))

/-! ## The two sides together -/

/-- Where a caller of `rtcore_sched_prog` is once it wants `sched_lock`. -/
inductive SenderPc (R : Type)
  | idle
  | pushing (pc : PushPc R)
  | pend
  | unlock
  deriving DecidableEq, Repr

/-- The shared ring, the lock, the pending bit of the interrupt and both sides. The
last three fields record history and nothing reads them: the records in the order
of their publication, those whose slot was cleared, and those `mpsc_pop` returned. -/
structure Mailbox (P R : Type) where
  ring : MpscRing R
  schedLock : Option P
  sender : P → SenderPc R
  receiver : Option (PopPc R)
  spi : Bool
  pushed : List R
  taken : List R
  returned : List R

def mailboxInit (r : MpscRing R) : Mailbox P R where
  ring := ipcInit r
  schedLock := none
  sender _ := .idle
  receiver := none
  spi := false
  pushed := []
  taken := []
  returned := []

/-- What a push access adds to the history. -/
def PushPc.published : PushPc R → List R
  | .publish req _ => [req]
  | _ => []

/-- The history grows by the access with which `mpsc_push` returns success. -/
theorem mpscPush_published (tryOnly : Bool) (r : MpscRing R) (pc : PushPc R) :
    pc.published ≠ [] ↔ (mpscPush tryOnly r pc).2 = .inr 0 := by
  cases pc with
  | spin req idx =>
    have hagain : -eagain ≠ 0 := by decide
    simp only [PushPc.published, mpscPush]
    split_ifs <;> simp [hagain]
  | claim req | copy req idx | publish req idx => simp [PushPc.published, mpscPush]

/-- What a pop access takes out of the ring. -/
def PopPc.cleared : PopPc R → List R
  | .clear _ out => [out]
  | _ => []

section Steps
variable [DecidableEq P]

def Mailbox.setSender (m : Mailbox P R) (p : P) (pc : SenderPc R) : Mailbox P R :=
  { m with sender := Function.update m.sender p pc }

/-- `mutex_lock`, which waits while another caller holds the lock. -/
def mutexLock (m : Mailbox P R) (p : P) (req : R) : Mailbox P R :=
  if m.schedLock = none then
    { m with schedLock := some p }.setSender p (.pushing (.claim req))
  else m

/-- One step of a caller that holds the lock. -/
def senderStep (m : Mailbox P R) (p : P) : Mailbox P R :=
  match m.sender p with
  | .idle => m
  | .pushing pc =>
    let s := mpscPush false m.ring pc
    { m with ring := s.1, pushed := m.pushed ++ pc.published }.setSender p
      (s.2.elim .pushing fun _ => .pend)
  | .pend => { m with spi := true }.setSender p .unlock
  | .unlock => { m with schedLock := none }.setSender p .idle

end Steps

def receiverCall (m : Mailbox P R) : Mailbox P R :=
  if m.receiver = none then { m with receiver := some .start } else m

/-- One access of the receiver, with the value `mpsc_pop` returns if this is its last. -/
def receiverStep (m : Mailbox P R) : Mailbox P R × Option (Option R) :=
  match m.receiver with
  | none => (m, none)
  | some pc =>
    let s := mpscPop m.ring pc
    let m := { m with ring := s.1, taken := m.taken ++ pc.cleared }
    match s.2 with
    | .inl pc => ({ m with receiver := some pc }, none)
    | .inr res => ({ m with receiver := none, returned := m.returned ++ res.toList }, some res)

/-- What can happen next. -/
inductive MailboxStep (P R : Type)
  | lock (p : P) (req : R)
  | sender (p : P)
  | call
  | receiver
  deriving DecidableEq, Repr

def mailboxStep [DecidableEq P] (m : Mailbox P R) : MailboxStep P R → Mailbox P R
  | .lock p req => mutexLock m p req
  | .sender p => senderStep m p
  | .call => receiverCall m
  | .receiver => (receiverStep m).1

/-- Any interleaving, from a freshly initialised ring. -/
def mailboxRun [DecidableEq P] (r : MpscRing R) (ss : List (MailboxStep P R)) : Mailbox P R :=
  ss.foldl mailboxStep (mailboxInit r)

end JanusRT
