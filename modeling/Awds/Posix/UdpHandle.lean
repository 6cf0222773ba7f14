import Awds.Lib.Descriptors
import Awds.Posix.Loop

/-!
# The socket of a `UdpHandle`: `ShadowUdpHandle`

| here | there |
| --- | --- |
| `UdpAddress`         | `UdpHandle.h:14`, `UdpHandle.cc:27` |
| `Socket`             | what the kernel keeps for a socket |
| `UdpState`           | the handle and the descriptors of the process |
| `UdpState.construct` | the constructor (`ShadowUdpHandle.cc:106`) |
| `UdpState.setSrc`    | `setSrc` (:138) |
| `UdpState.setDest`   | `setDest` (:216) |

A socket can always be created; whether an address is free to `bind` is told with the call.
`broadcast_permission`: `SO_BROADCAST` follows the destination as long as no socket is replaced under a broadcast
destination.
-/

namespace Posix

def IPADDR_ANY : UInt32 := 0

def IPADDR_BROADCAST : UInt32 := 0xffffffff

/-- `ip` is set by the constructor and by `setIP` (:33), which both set `isBroadcast`. -/
structure UdpAddress where
  ip : UInt32
  port : UInt16
  isBroadcast : Bool
  broadcast_eq : isBroadcast = (ip == IPADDR_BROADCAST)
deriving DecidableEq

/-- The constructor (`UdpHandle.cc:31`), which sets the members with `setIP` and `setPort`. -/
def UdpAddress.new (ip : UInt32) (port : UInt16) : UdpAddress := ⟨ip, port, ip == IPADDR_BROADCAST, rfl⟩

structure Socket where
  /-- `SO_BROADCAST` -/
  broadcast : Bool
  /-- `SO_REUSEADDR` -/
  reuseAddr : Bool
  bound : Option (UInt32 × UInt16)
deriving DecidableEq

def Socket.default : Socket := ⟨false, false, none⟩

/-- `bind(2)`, which refuses a socket that is bound and an address that is not free. -/
def bind (kernel : Descriptors Socket) (fd : Nat) (addr : UdpAddress) (free : Bool) : Int × Descriptors Socket :=
  match kernel.object fd with
  | some socket =>
    if socket.bound.isNone && free then
      (0, kernel.modify fd fun socket => { socket with bound := some (addr.ip, addr.port) })
    else (-1, kernel)
  | none => (-1, kernel)

/-- `UdpHandle::Mode` (`UdpHandle.h:67`). -/
inductive Mode where
  | send | recv
deriving DecidableEq

/-- The members, with those of the `ShadowHandle` it has as a `UnixFdHandle`. -/
structure ShadowUdpHandle where
  unixFd : Nat
  unixMode : PosixHandleMode
  addr : UdpAddress
  src : UdpAddress
  alreadyBound : Bool
deriving DecidableEq

structure UdpState where
  kernel : Descriptors Socket
  handle : ShadowUdpHandle

/-- A call on the handle. -/
inductive UdpCall where
  | setSrc (addr : UdpAddress) (free : Bool)
  | setDest (addr : UdpAddress)
deriving DecidableEq

namespace UdpState

/-- `setSrc` (:138). -/
def setSrc (s : UdpState) (addr : UdpAddress) (free : Bool) : Int × UdpState :=
  let fd := s.handle.unixFd
  let kernel :=
    if s.handle.alreadyBound then
      let (newSocket, kernel) := s.kernel.create .default
      (kernel.dup2 newSocket fd).close newSocket
    else s.kernel
  let kernel := kernel.modify fd fun socket => { socket with reuseAddr := true }
  let (ret, kernel) := bind kernel fd addr free
  (ret, ⟨kernel, { s.handle with src := addr, alreadyBound := true }⟩)

/-- `setDest` (:216). -/
def setDest (s : UdpState) (addr : UdpAddress) : UdpState where
  kernel := if addr.isBroadcast then s.kernel.modify s.handle.unixFd fun socket => { socket with broadcast := true }
    else s.kernel
  handle := { s.handle with addr := addr }

/-- The constructor (:106). -/
def construct (kernel : Descriptors Socket) (mode : Mode) (addr : UdpAddress) (free : Bool) : UdpState :=
  let (udpSocket, kernel) := kernel.create .default
  let unixMode := if mode = .send then PosixHandleMode.write else .read
  let s := setDest ⟨kernel, ⟨udpSocket, unixMode, addr, .new IPADDR_ANY 0, false⟩⟩ addr
  if unixMode = .read then (s.setSrc addr free).2 else s

def call (s : UdpState) : UdpCall → UdpState
  | .setSrc addr free => (s.setSrc addr free).2
  | .setDest addr => s.setDest addr

def run (s : UdpState) (cs : List UdpCall) : UdpState := cs.foldl call s

/-- `SO_BROADCAST` of the socket behind the descriptor, if there is one. -/
def option (s : UdpState) : Option Bool := (s.kernel.object s.handle.unixFd).map Socket.broadcast

def Permitted (s : UdpState) : Prop := s.handle.addr.ip = IPADDR_BROADCAST → s.option = some true

end UdpState

/-- No socket is replaced under a broadcast destination: `bound` and `dest` say whether the handle is bound
already, and where it sends to. -/
def NeverReplaced (bound : Bool) (dest : UdpAddress) : List UdpCall → Prop
  | [] => True
  | .setSrc _ _ :: cs => ¬(bound = true ∧ dest.ip = IPADDR_BROADCAST) ∧ NeverReplaced true dest cs
  | .setDest addr :: cs => NeverReplaced bound addr cs

instance : (bound : Bool) → (dest : UdpAddress) → (cs : List UdpCall) → Decidable (NeverReplaced bound dest cs)
  | _, _, [] => inferInstanceAs (Decidable True)
  | _, dest, .setSrc _ _ :: cs =>
    let _ := instDecidableNeverReplaced true dest cs
    inferInstanceAs (Decidable (_ ∧ _))
  | bound, _, .setDest addr :: cs => instDecidableNeverReplaced bound addr cs

/-! ## What a call makes of the option -/

namespace UdpState

variable {s : UdpState}

/-- `bind` leaves the options alone. -/
theorem object_bind (kernel : Descriptors Socket) (fd : Nat) (addr : UdpAddress) (free : Bool) :
    ((bind kernel fd addr free).2.object fd).map Socket.broadcast = (kernel.object fd).map Socket.broadcast := by
  rw [bind]
  split
  · rename_i socket h
    split
    · rw [Descriptors.object_modify, h]
      rfl
    · rw [h]
  · rename_i h
    rw [h]

/-- A bound handle gets another socket. -/
theorem object_replaced {kernel : Descriptors Socket} {fd i : Nat} (h : kernel.entry fd = some i) (x : Socket) :
    (((kernel.create x).2.dup2 (kernel.create x).1 fd).close (kernel.create x).1).object fd = some x := by
  have hne : fd ≠ (kernel.create x).1 := Descriptors.ne_free h
  rw [Descriptors.object_close_of_ne hne, Descriptors.object_dup2, Descriptors.object_create]
  rw [Descriptors.entry_create, if_pos rfl]
  rfl

theorem entry_of_option {b : Bool} (h : s.option = some b) : ∃ i, s.kernel.entry s.handle.unixFd = some i := by
  obtain ⟨socket, hobject, -⟩ := Option.map_eq_some_iff.1 h
  obtain ⟨i, hi, -⟩ := Option.bind_eq_some_iff.1 hobject
  exact ⟨i, hi⟩

theorem option_setSrc {b : Bool} (h : s.option = some b) (addr : UdpAddress) (free : Bool) :
    (s.setSrc addr free).2.option = some (b && !s.handle.alreadyBound) := by
  obtain ⟨i, hi⟩ := entry_of_option h
  simp only [option, setSrc]
  rw [object_bind, Descriptors.object_modify, Option.map_map]
  cases hb : s.handle.alreadyBound with
  | true =>
    rw [if_pos rfl, object_replaced hi, Option.map_some, Bool.not_true, Bool.and_false]
    rfl
  | false =>
    rw [if_neg Bool.false_ne_true, Bool.not_false, Bool.and_true, ← h]
    rfl

theorem option_setDest {b : Bool} (h : s.option = some b) (addr : UdpAddress) :
    (s.setDest addr).option = some (b || addr.isBroadcast) := by
  simp only [option, setDest]
  cases addr.isBroadcast with
  | true =>
    obtain ⟨socket, hobject, -⟩ := Option.map_eq_some_iff.1 h
    rw [if_pos rfl, Descriptors.object_modify, hobject, Bool.or_true]
    rfl
  | false => rw [if_neg Bool.false_ne_true, Bool.or_false, ← h, option]

theorem isBroadcast_iff (a : UdpAddress) : a.isBroadcast = true ↔ a.ip = IPADDR_BROADCAST := by
  rw [a.broadcast_eq, beq_iff_eq]

/-- From a state that is right, the calls keep to the permission exactly if they replace no socket under a
broadcast destination. -/
theorem permitted_iff (cs : List UdpCall) : ∀ (s : UdpState) (b : Bool), s.option = some b → s.Permitted →
    ((∀ pre, pre <+: cs → (s.run pre).Permitted) ↔ NeverReplaced s.handle.alreadyBound s.handle.addr cs) := by
  induction cs with
  | nil =>
    intro s b _ hp
    refine ⟨fun _ => trivial, fun _ pre hpre => ?_⟩
    rw [List.prefix_nil.1 hpre]
    exact hp
  | cons c cs ih =>
    intro s b hb hp
    have hsplit : (∀ pre, pre <+: c :: cs → (s.run pre).Permitted) ↔
        ∀ pre, pre <+: cs → ((s.call c).run pre).Permitted := by
      constructor
      · intro h pre hpre
        exact h (c :: pre) (List.cons_prefix_cons.2 ⟨rfl, hpre⟩)
      · intro h pre hpre
        rcases List.prefix_cons_iff.1 hpre with rfl | ⟨pre', rfl, hpre'⟩
        · exact hp
        · exact h pre' hpre'
    rw [hsplit]
    cases c with
    | setDest addr =>
      have hoption := option_setDest hb addr
      refine ih (s.setDest addr) _ hoption fun hip => ?_
      rw [hoption, (isBroadcast_iff addr).2 hip, Bool.or_true]
    | setSrc addr free =>
      have hoption := option_setSrc hb addr free
      rw [NeverReplaced]
      by_cases hloss : s.handle.alreadyBound = true ∧ s.handle.addr.ip = IPADDR_BROADCAST
      · -- the new socket has no option, and the state behind the call is wrong already
        refine ⟨fun h => ?_, fun h => absurd hloss h.1⟩
        have hwrong := h [] List.nil_prefix hloss.2
        rw [hloss.1, Bool.not_true, Bool.and_false] at hoption
        cases hoption.symm.trans hwrong
      · have hnext : (s.setSrc addr free).2.Permitted := by
          intro hip
          have hfree : s.handle.alreadyBound = false := Bool.eq_false_iff.2 fun h => hloss ⟨h, hip⟩
          rw [hoption, hfree, Bool.not_false, Bool.and_true, ← hb]
          exact hp hip
        rw [and_iff_right hloss]
        exact ih _ _ hoption hnext

/-! ## Runs -/

theorem construct_permitted (kernel : Descriptors Socket) (mode : Mode) (addr : UdpAddress) (free : Bool) :
    (construct kernel mode addr free).option = some addr.isBroadcast ∧
      (construct kernel mode addr free).handle.addr = addr ∧
      (construct kernel mode addr free).handle.alreadyBound = (mode == .recv) := by
  have hopen : option ⟨(kernel.create .default).2, ⟨(kernel.create .default).1,
      if mode = .send then PosixHandleMode.write else .read, addr, .new IPADDR_ANY 0, false⟩⟩ = some false := by
    rw [option, Descriptors.object_create]
    rfl
  have hdest := option_setDest hopen addr
  cases mode with
  | send => exact ⟨hdest, rfl, rfl⟩
  | recv =>
    refine ⟨?_, rfl, rfl⟩
    have hsrc := option_setSrc hdest addr free
    rwa [show (setDest _ addr).handle.alreadyBound = false from rfl, Bool.not_false, Bool.and_true] at hsrc

/-- **After the construction and after every call the socket behind the descriptor may send to the destination,
exactly if no `setSrc` replaces the socket while the destination is a broadcast address.** -/
theorem broadcast_permission (kernel : Descriptors Socket) (mode : Mode) (addr : UdpAddress) (free : Bool)
    (cs : List UdpCall) :
    (∀ pre, pre <+: cs → ((construct kernel mode addr free).run pre).Permitted) ↔
      NeverReplaced (mode == .recv) addr cs := by
  obtain ⟨hoption, haddr, hbound⟩ := construct_permitted kernel mode addr free
  have hp : (construct kernel mode addr free).Permitted := by
    intro hip
    rw [haddr] at hip
    rw [hoption, (isBroadcast_iff addr).2 hip]
  have h := permitted_iff cs _ _ hoption hp
  rwa [haddr, hbound] at h

/-- A receiver for broadcasts that is moved to another port: its new socket does not have the option. -/
theorem rebound_loses_broadcast :
    ¬ ∀ (kernel : Descriptors Socket) (mode : Mode) (addr : UdpAddress) (free : Bool) (cs : List UdpCall) pre,
      pre <+: cs → ((construct kernel mode addr free).run pre).Permitted := by
  intro h
  have hrun := h ⟨[], [], nofun⟩ .recv (.new IPADDR_BROADCAST 5000) true [.setSrc (.new IPADDR_ANY 6000) true] _
    (List.prefix_refl _) rfl
  exact absurd hrun (by decide)

end UdpState

end Posix
