import Awds.Posix.GuessIface
import Awds.Posix.UdpHandle

/-!
# What an `ip` and a `port` mean: `UdpAddress` and `sockaddr`

| here | there |
| --- | --- |
| `UdpAddress.print`            | `operator <<` (`UdpHandle.cc:59`) |
| `ShadowUdpHandle.bindAddr`    | `x_addr` in `setSrc` (`ShadowUdpHandle.cc:155`) |
| `ShadowUdpHandle.writeAddr`   | `x_addr` in `write` (:172) |
| `ShadowUdpHandle.read`        | what `read` stores of the sender (:208) |
| `PosixApiIface.getIpAddr`     | `getIpAddr` (:33) |
| `UdpHandle.getIP`             | `getIP` (`UdpHandle.cc:52`) |

`setSrc`, `write` and `read` take `ip` and `port` in the host's byte order, `operator <<` and `getIpAddr` in that of a
`sockaddr`. `one_byte_order`: they agree where the orders are the same.
-/

namespace Posix

open Inet

/-- A `sockaddr_in` of the family `AF_INET`. -/
structure SockaddrIn where
  sAddr : UInt32
  sinPort : UInt16
deriving DecidableEq

def hostPort (addr : List Char) (port : Nat) : List Char := addr ++ ':' :: decimal port

/-- The address and the port, which has its most significant byte first in memory. -/
def SockaddrIn.text (o : ByteOrder) (x : SockaddrIn) : List Char :=
  hostPort (inetNtoa o x.sAddr) (BigEndian.value (memory o 2 x.sinPort.toNat))

def UdpAddress.print (o : ByteOrder) (a : UdpAddress) : List Char := hostPort (inetNtoa o a.ip) (htons o a.port).toNat

def SockaddrIn.of (o : ByteOrder) (a : UdpAddress) : SockaddrIn := ⟨htonl o a.ip, htons o a.port⟩

namespace ShadowUdpHandle

def bindAddr (o : ByteOrder) (srcAddr : UdpAddress) : SockaddrIn := .of o srcAddr

def writeAddr (o : ByteOrder) (h : ShadowUdpHandle) : SockaddrIn := .of o h.addr

/-- A datagram from `x`. -/
def read (o : ByteOrder) (h : ShadowUdpHandle) (x : SockaddrIn) : ShadowUdpHandle :=
  { h with src := .new (htonl o x.sAddr) (htons o x.sinPort) }

end ShadowUdpHandle

structure PosixApiIface where
  ipAddr : UInt32

/-- `none` as long as `guess_iface` searches. -/
def PosixApiIface.getIpAddr (o : ByteOrder) (api : PosixApiIface) (table : List Ifreq) (fuel : Nat) : Option UInt32 :=
  if api.ipAddr ≠ 0 then some api.ipAddr else (guessIface o table fuel).map (inetAddr o)

def UdpHandle.getIP (o : ByteOrder) (api : PosixApiIface) (table : List Ifreq) (fuel : Nat) : Option UInt64 :=
  (api.getIpAddr o table fuel).map UInt32.toUInt64

/-! ## Texts -/

theorem decimal_colon (n : Nat) : ':' ∉ decimal n :=
  fun h => absurd (Nat.isDigit_of_mem_toDigits (by decide) (by decide) h) (by decide)

theorem decimal_inj {m n : Nat} : decimal m = decimal n ↔ m = n := by
  constructor
  · intro h
    have hval := congrArg (Nat.ofDigitChars 10 · 0) h
    simpa only [decimal, Nat.ofDigitChars_ten_toDigits] using hval
  · rintro rfl
    rfl

/-- The last colon of a text is the one before the port. -/
theorem takeWhile_hostPort (addr : List Char) (port : Nat) :
    (hostPort addr port).reverse.takeWhile (· ≠ ':') = (decimal port).reverse := by
  rw [hostPort, List.reverse_append, List.reverse_cons, List.append_assoc, List.takeWhile_append_of_pos,
    List.singleton_append, List.takeWhile_cons_of_neg (by decide), List.append_nil]
  intro c hc
  rw [decide_eq_true_eq]
  rintro rfl
  exact decimal_colon port (List.mem_reverse.1 hc)

theorem hostPort_inj {a b : List Char} {m n : Nat} : hostPort a m = hostPort b n ↔ a = b ∧ m = n := by
  constructor
  · intro h
    have hport : m = n := by
      have hdigits := takeWhile_hostPort a m
      rw [h, takeWhile_hostPort] at hdigits
      exact (decimal_inj.1 (List.reverse_inj.1 hdigits)).symm
    subst hport
    exact ⟨List.append_cancel_right h, rfl⟩
  · rintro ⟨rfl, rfl⟩
    rfl

variable {o : ByteOrder}

/-- The number that the bytes of a word in memory are, with the first one the most significant. -/
theorem value_memory {n v : Nat} (h : v < 256 ^ n) : BigEndian.value (memory o n v) = hton o n v := by
  cases o with
  | big => rw [memory, BigEndian.value_bytes, Nat.mod_eq_of_lt h, hton_big h]
  | little => rfl

theorem text_eq (o : ByteOrder) (x : SockaddrIn) : x.text o = hostPort (inetNtoa o x.sAddr) (htons o x.sinPort).toNat := by
  rw [SockaddrIn.text, value_memory x.sinPort.toNat_lt, toNat_htons]

/-! ## The two readings -/

/-- The bytes of an address and a port are the same in both orders. -/
def SameEitherWay (o : ByteOrder) (ip : UInt32) (port : UInt16) : Prop :=
  o = .big ∨ Symmetric 4 ip.toNat ∧ Symmetric 2 port.toNat

theorem sameEitherWay_iff {ip : UInt32} {port : UInt16} :
    SameEitherWay o ip port ↔ htonl o ip = ip ∧ htons o port = port := by
  rw [SameEitherWay, or_and_left, htonl_eq_self_iff, htons_eq_self_iff]

/-- What is printed is where `write` sends to and what `setSrc` binds to. -/
theorem print_of_iff (ip : UInt32) (port : UInt16) :
    (UdpAddress.new ip port).print o = (SockaddrIn.of o (.new ip port)).text o ↔ SameEitherWay o ip port := by
  rw [sameEitherWay_iff, text_eq, UdpAddress.print, SockaddrIn.of, UdpAddress.new, hostPort_inj, inetNtoa_inj, htons_htons,
    UInt16.toNat_inj, eq_comm (a := ip)]

/-- What is printed of a stored sender is where the datagram is from. -/
theorem print_read_iff (h : ShadowUdpHandle) (x : SockaddrIn) :
    (h.read o x).src.print o = x.text o ↔ SameEitherWay o x.sAddr x.sinPort := by
  rw [sameEitherWay_iff, text_eq, UdpAddress.print, ShadowUdpHandle.read, UdpAddress.new, hostPort_inj, inetNtoa_inj,
    htons_htons, UInt16.toNat_inj, eq_comm (a := x.sinPort)]

/-- What is in an address from `getIP` is the word that the interface has in memory. -/
theorem getIP_eq {api : PosixApiIface} {table : List Ifreq} {fuel : Nat} {i : Ifreq} {n : UInt64} (hapi : api.ipAddr = 0)
    (hi : guessIface o table fuel = some (i.addrString o)) (hn : UdpHandle.getIP o api table fuel = some n) :
    n.toUInt32 = i.addr := by
  rw [UdpHandle.getIP, PosixApiIface.getIpAddr, if_neg (not_not.2 hapi), hi, Option.map_some, Option.map_some] at hn
  cases hn
  calc (inetAddr o (i.addrString o)).toUInt64.toUInt32
      _ = inetAddr o (i.addrString o) := UInt32.toUInt32_toUInt64 _
      _ = i.addr := inetAddr_inetNtoa o i.addr

theorem of_getIP_iff {ip : UInt32} (port : UInt16) :
    inetNtoa o (SockaddrIn.of o (.new ip port)).sAddr = inetNtoa o ip ↔ o = .big ∨ Symmetric 4 ip.toNat := by
  rw [inetNtoa_inj, SockaddrIn.of, UdpAddress.new, htonl_eq_self_iff]

/-- All uses of the address of `ip` and `port`, of a datagram from `x`, and of the number `n` for the interface `i`
take an `ip` and a `port` for the same. -/
structure OneOrder (o : ByteOrder) (ip : UInt32) (port : UInt16) (h : ShadowUdpHandle) (x : SockaddrIn) (i : Ifreq)
    (n : UInt64) : Prop where
  write : h.addr = .new ip port → h.addr.print o = (h.writeAddr o).text o
  bind : (UdpAddress.new ip port).print o = (ShadowUdpHandle.bindAddr o (.new ip port)).text o
  read : (h.read o x).src.print o = x.text o
  localAddr : inetNtoa o (SockaddrIn.of o (.new n.toUInt32 port)).sAddr = i.addrString o

/-- **There is one byte order on a host that has the most significant byte first, and elsewhere for addresses and ports
that are the same in both orders.** -/
theorem one_byte_order (o : ByteOrder) (ip : UInt32) (port : UInt16) (h : ShadowUdpHandle) (x : SockaddrIn)
    (api : PosixApiIface) (table : List Ifreq) (fuel : Nat) (i : Ifreq) (n : UInt64) (hapi : api.ipAddr = 0)
    (hi : guessIface o table fuel = some (i.addrString o)) (hn : UdpHandle.getIP o api table fuel = some n) :
    OneOrder o ip port h x i n ↔
      SameEitherWay o ip port ∧ SameEitherWay o x.sAddr x.sinPort ∧ (o = .big ∨ Symmetric 4 i.addr.toNat) := by
  have hlocal := getIP_eq hapi hi hn
  constructor
  · rintro ⟨-, hbind, hread, haddr⟩
    rw [hlocal] at haddr
    exact ⟨(print_of_iff ip port).1 hbind, (print_read_iff h x).1 hread, (of_getIP_iff port).1 haddr⟩
  · rintro ⟨hip, hx, haddr⟩
    refine ⟨fun heq => ?_, (print_of_iff ip port).2 hip, (print_read_iff h x).2 hx, ?_⟩
    · rw [ShadowUdpHandle.writeAddr, heq]
      exact (print_of_iff ip port).2 hip
    · rw [hlocal]
      exact (of_getIP_iff port).2 haddr

/-- A handle for 127.0.0.1, port 80. -/
def localHandle : ShadowUdpHandle := ⟨3, .write, .new 0x7f000001 80, .new IPADDR_ANY 0, false⟩

/-- 127.0.0.1, port 80, where the order is that of the network, and 10.1.1.10, port 20560, which is `0x5050`, where it
is not. -/
theorem one_byte_order_big :
    OneOrder .big 0x7f000001 80 localHandle ⟨0x7f000001, 80⟩ ⟨"eth0".toList, IFF_UP, 0x7f000001⟩ 0x7f000001 ∧
      OneOrder .little 0x0a01010a 0x5050 localHandle ⟨0x0a01010a, 0x5050⟩ ⟨"eth0".toList, IFF_UP, 0x0a01010a⟩ 0x0a01010a :=
  ⟨(one_byte_order .big 0x7f000001 80 localHandle ⟨0x7f000001, 80⟩ ⟨0⟩ [⟨"eth0".toList, IFF_UP, 0x7f000001⟩] 6
      ⟨"eth0".toList, IFF_UP, 0x7f000001⟩ 0x7f000001 rfl (by decide) (by decide)).2 ⟨.inl rfl, .inl rfl, .inl rfl⟩,
    (one_byte_order .little 0x0a01010a 0x5050 localHandle ⟨0x0a01010a, 0x5050⟩ ⟨0⟩ [⟨"eth0".toList, IFF_UP, 0x0a01010a⟩] 6
      ⟨"eth0".toList, IFF_UP, 0x0a01010a⟩ 0x0a01010a rfl (by decide) (by decide)).2
      ⟨.inr ⟨by decide, by decide⟩, .inr ⟨by decide, by decide⟩, .inr (by decide)⟩⟩

/-- With the least significant byte first, what is sent to 127.0.0.1:80 is printed as 1.0.0.127:20480. -/
theorem printed_swapped : ¬∀ (o : ByteOrder) (ip : UInt32) (port : UInt16) (h : ShadowUdpHandle), h.addr = .new ip port →
    h.addr.print o = (h.writeAddr o).text o := by
  intro hall
  have hprint : localHandle.addr.print .little = "1.0.0.127:20480".toList := by decide
  have hwrite : (localHandle.writeAddr .little).text .little = "127.0.0.1:80".toList := by decide
  have h := hall .little 0x7f000001 80 localHandle rfl
  rw [hprint, hwrite] at h
  exact absurd h (by decide)

end Posix
