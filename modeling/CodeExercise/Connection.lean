import CodeExercise.Runs
import Mathlib

/-!
Packet reassembly of `rpc/connection.cc`. The size in front of a packet is signed and checked from above
only: for one from -4 to -1 `readpdu` allocates less than the four bytes it copies. Where none arrives
(`Announces`), all that is read stays in the buffer and packets are delivered whole. The other side writes
the packets that `send` is given (`wire_has_packets`).
-/
namespace CodeExercise.Connection
open CodeExercise.Runs List

def maxPdu : Int := 10*2^20

/-- `charbuf`; `buf` is the number of bytes allocated and `data` what has been put there. -/
structure Charbuf where
  buf : Option Nat
  sz : Int
  solong : Int
  data : List UInt8

/-- A connection, with the memory errors and the packets given to `got_pdu` so far. -/
structure State where
  rpdu : Charbuf
  dead : Bool
  overrun : Bool
  delivered : List (List UInt8 × Int)

def start : State := ⟨⟨none,0,0,[]⟩,false,false,[]⟩

/-- A call of `read_cb`: what the two `read` calls give (nothing for -1), whether `errno` is `EAGAIN`
after the second, and what `got_pdu` returns. -/
structure Label where
  header : Option (List UInt8)
  body : Option (List UInt8)
  again : Bool
  consumed : Bool

def ntohl (bytes : List UInt8) : Int := Int.bmod ((bytes.foldl (fun n b => 256*n+b.toNat) 0 : Nat) : Int) (2^32)

/-- The part of `readpdu` that reads a size and allocates; no result where the program ends. -/
def readSize (s : State) : Option (List UInt8) → Option (State × Bool)
  | none => some (s,false)
  | some bytes =>
    if 4 < bytes.length then none
    else if bytes.length ≠ 4 ∨ maxPdu < ntohl bytes then some (s,false)
    else
      let size := ((ntohl bytes+4)%2^64).toNat
      -- `VERIFY(rpdu_.buf == NULL)`, and `malloc` gives no half of the address space
      if s.rpdu.buf.isSome ∨ 2^63 ≤ size then none
      else some ({ s with rpdu := ⟨some size,ntohl bytes,4,bytes⟩, overrun := s.overrun || decide (size < 4) },true)

/-- The part that reads on. The length asked for is a `size_t`, and a `read` of half the address space fails. -/
def readRest (s : State) (again : Bool) (body : Option (List UInt8)) : Option (State × Bool) :=
  let p := s.rpdu
  let count := ((p.sz-p.solong)%2^64).toNat
  if 2^63 ≤ count then some ({ s with rpdu := ⟨none,0,0,[]⟩ },false)
  else match body with
    | none | some [] => if again then some (s,true) else some ({ s with rpdu := ⟨none,0,0,[]⟩ },false)
    | some bytes =>
      if count < bytes.length then none
      else some ({ s with rpdu := { p with solong := p.solong+bytes.length, data := p.data++bytes },
                          overrun := s.overrun || decide (p.buf.getD 0 < p.solong+bytes.length) },true)

def readpdu (s : State) (label : Label) : Option (State × Bool) :=
  if s.rpdu.sz = 0 then (readSize s label.header).bind (fun (s,succ) => if succ then readRest s label.again label.body else some (s,false))
  else readRest s label.again label.body

def deliver (s : State) (consumed : Bool) : State :=
  if s.rpdu.buf.isSome ∧ s.rpdu.sz = s.rpdu.solong then
    { s with delivered := (s.rpdu.data,s.rpdu.sz)::s.delivered, rpdu := if consumed then ⟨none,0,0,[]⟩ else s.rpdu }
  else s

def readCb (s : State) (label : Label) : Option State :=
  if s.dead then some s
  else if s.rpdu.buf.isNone ∨ s.rpdu.solong < s.rpdu.sz then
    (readpdu s label).map (fun (s,succ) => deliver { s with dead := !succ } label.consumed)
  else some (deliver s label.consumed)

/-- No size that arrives is from -4 to -1. -/
def Announces (s : State) (label : Label) : Prop :=
  s.rpdu.sz = 0 → ∀ bytes ∈ label.header, bytes.length = 4 → ¬(-4 ≤ ntohl bytes ∧ ntohl bytes < 0)
deriving Decidable

structure Charbuf.Held (p : Charbuf) (size : Nat) : Prop where
  low : 4 ≤ p.solong
  high : p.solong ≤ p.sz
  room : (size : Int) = p.sz+4
  filled : (p.data.length : Int) = p.solong
  announced : ntohl (p.data.take 4) = p.sz

structure State.Inv (s : State) : Prop where
  inside : s.overrun = false
  held : ∀ size ∈ s.rpdu.buf, s.rpdu.Held size
  empty : s.rpdu.buf = none → s.rpdu.sz = 0
  whole : ∀ p ∈ s.delivered, (p.1.length : Int) = p.2 ∧ ntohl (p.1.take 4) = p.2

variable {s t : State} {label : Label} {succ : Bool}

/-- A size below 4 makes the read that follows fail. -/
lemma State.Inv.readSize (inv : s.Inv) (free : s.rpdu.sz = 0) (announces : Announces s label)
    (read : readSize s label.header = some (t,succ)) : t.Inv ∧ (succ = true → t.rpdu.buf.isSome) ∨
      succ = true ∧ t.overrun = false ∧ t.delivered = s.delivered ∧ 2^63 ≤ ((t.rpdu.sz-t.rpdu.solong)%2^64).toNat := by
  unfold Connection.readSize at read
  split at read
  · cases read
    exact .inl ⟨inv,nofun⟩
  · next bytes arrived =>
    split at read
    · cases read
    · split at read
      · cases read
        exact .inl ⟨inv,nofun⟩
      · next fits =>
        obtain ⟨four,small⟩ := not_or.mp fits
        have other := announces free bytes arrived (not_not.mp four)
        have high : ntohl bytes ≤ 10*2^20 := Int.not_lt.mp small
        dsimp only at read
        split at read
        · cases read
        · next room =>
          -- below -4 the size is no size `malloc` has
          have bound : -(2^32/2) ≤ ntohl bytes := Int.le_bmod (by decide)
          have low : 0 ≤ ntohl bytes := by omega
          have inside : (s.overrun || decide (((ntohl bytes+4)%2^64).toNat < 4)) = false := by
            simp only [inv.inside,Bool.false_or,decide_eq_false_iff_not]
            omega
          cases read
          by_cases whole : 4 ≤ ntohl bytes
          · refine .inl ⟨⟨inside,?_,nofun,inv.whole⟩,fun _ => rfl⟩
            intro size' same
            have same := Option.some.inj same
            exact ⟨by simp,by simpa using whole,by simp only; omega,by simp [not_not.mp four],by simp [take_of_length_le (show bytes.length ≤ 4 by omega)]⟩
          · exact .inr ⟨rfl,inside,rfl,by simp only; omega⟩

lemma State.Inv.closed (inv : s.Inv) (inside : t.overrun = false) (same : t.delivered = s.delivered) : State.Inv { t with rpdu := ⟨none,0,0,[]⟩ } :=
  ⟨inside,nofun,fun _ => rfl,same ▸ inv.whole⟩

lemma State.Inv.readRest (inv : s.Inv) (holds : s.rpdu.buf.isSome) (read : readRest s again bytes = some (t,succ)) : t.Inv := by
  have closed := inv.closed inv.inside rfl
  have ended : ∀ v, (if again = true then some (s,true) else some ({ s with rpdu := ⟨none,0,0,[]⟩ },false)) = some v → v.1.Inv := by
    intro v ended
    split at ended
    · exact Option.some.inj ended ▸ inv
    · exact Option.some.inj ended ▸ closed
  unfold Connection.readRest at read
  dsimp only at read
  split at read
  · cases read
    exact closed
  split at read
  · exact ended _ read
  · exact ended _ read
  · next bytes _ =>
    split at read
    · cases read
    · next fits =>
      obtain ⟨size,buf⟩ := Option.isSome_iff_exists.mp holds
      obtain ⟨low,high,room,filled,announced⟩ := inv.held size buf
      cases read
      refine ⟨?_,?_,fun free => by simp [buf] at free,inv.whole⟩
      · simp only [inv.inside,buf,Bool.false_or,decide_eq_false_iff_not,Option.getD_some]
        omega
      · rintro size' same
        obtain rfl : size = size' := Option.some.inj (buf.symm.trans same)
        refine ⟨?_,?_,room,by simp [filled],?_⟩
        · change 4 ≤ s.rpdu.solong+bytes.length
          omega
        · change s.rpdu.solong+bytes.length ≤ s.rpdu.sz
          omega
        · rw [take_append_of_le_length (by omega)]
          exact announced

lemma State.Inv.deliver (inv : s.Inv) : (Connection.deliver s consumed).Inv := by
  unfold Connection.deliver
  split
  · next full =>
    obtain ⟨size,buf⟩ := Option.isSome_iff_exists.mp full.1
    have held := inv.held size buf
    refine ⟨inv.inside,?_,?_,?_⟩
    · cases consumed
      · exact inv.held
      · exact nofun
    · cases consumed
      · exact inv.empty
      · exact fun _ => rfl
    · rintro p (_ | ⟨_,old⟩)
      · exact ⟨held.filled.trans full.2.symm,held.announced⟩
      · exact inv.whole p old
  · exact inv

lemma State.Inv.readCb (inv : s.Inv) (announces : Announces s label) (moved : readCb s label = some t) : t.Inv := by
  unfold Connection.readCb at moved
  split at moved
  · exact Option.some.inj moved ▸ inv
  · split at moved
    · obtain ⟨⟨u,succ⟩,read,rfl⟩ := Option.map_eq_some_iff.mp moved
      have inv' : u.Inv := by
        unfold readpdu at read
        split at read
        · next free =>
          obtain ⟨⟨v,ok⟩,header,rest⟩ := Option.bind_eq_some_iff.mp read
          rcases inv.readSize free announces header with ⟨inv',holds⟩ | ⟨rfl,inside,same,fails⟩
          · cases ok with
            | false => exact (Prod.mk.inj (Option.some.inj rest)).1 ▸ inv'
            | true => exact inv'.readRest (holds rfl) rest
          · cases (if_pos fails).symm.trans rest
            exact inv.closed inside same
        · next busy => exact inv.readRest (Option.isSome_iff_ne_none.mpr (mt inv.empty busy)) read
      exact State.Inv.deliver { inv' with }
    · exact Option.some.inj moved ▸ inv.deliver

/-- For a size of -1 four bytes are put into the three allocated. -/
theorem exists_overrun : ∃ s, Reach (· = start) anyStep readCb s ∧ s.overrun = true :=
  exists_reach_from rfl [⟨some [255,255,255,255],none,false,false⟩] (by decide +kernel)

/-- Where no size from -4 to -1 arrives, nothing is put behind the buffer, a buffer held has 4 ≤ `solong` ≤ `sz`, and
each packet delivered has the size announced in it. -/
theorem packets_in_buffer (reached : Reach (· = start) Announces readCb s) :
    s.overrun = false ∧ (s.rpdu.buf.isSome → 4 ≤ s.rpdu.solong ∧ s.rpdu.solong ≤ s.rpdu.sz) ∧
    ∀ p ∈ s.delivered, (p.1.length : Int) = p.2 ∧ ntohl (p.1.take 4) = p.2 := by
  have inv : s.Inv := by
    refine Reach.invariant ?_ (fun s label t inv announces moved => inv.readCb announces moved) s reached
    rintro _ rfl
    exact ⟨rfl,nofun,fun _ => rfl,nofun⟩
  refine ⟨inv.inside,fun holds => ?_,inv.whole⟩
  obtain ⟨size,buf⟩ := Option.isSome_iff_exists.mp holds
  exact ⟨(inv.held size buf).low,(inv.held size buf).high⟩

theorem exists_packet_in_buffer : ∃ s, Reach (· = start) Announces readCb s ∧ s.delivered = [([0,0,0,6,7,8],6)] ∧ s.rpdu.buf = some 13 ∧
    s.overrun = false ∧ (s.rpdu.buf.isSome → 4 ≤ s.rpdu.solong ∧ s.rpdu.solong ≤ s.rpdu.sz) ∧
    ∀ p ∈ s.delivered, (p.1.length : Int) = p.2 ∧ ntohl (p.1.take 4) = p.2 := by
  obtain ⟨s,reached,delivered,held⟩ : ∃ s, Reach (· = start) Announces readCb s ∧ s.delivered = [([0,0,0,6,7,8],6)] ∧ s.rpdu.buf = some 13 :=
    exists_reach_from rfl [⟨some [0,0,0,6],some [7],false,true⟩,⟨none,some [8],false,true⟩,⟨some [0,0,0,9],some [1],false,true⟩] (by decide +kernel)
  exact ⟨s,reached,delivered,held,packets_in_buffer reached⟩

def htonl (n : Nat) : List UInt8 := [24,16,8,0].map (fun i => UInt8.ofNat (n/2^i))

/-- The sending side, with the argument of the last call of `send` that got its turn, what was written to the socket and
the arguments of the calls that have returned true. A thread that waits for its turn or for the end of its packet may look
again at any time. -/
structure Sender where
  wpdu : Charbuf
  dead : Bool
  arg : List UInt8
  wire : List UInt8
  sent : List (List UInt8)

def Sender.start : Sender := ⟨⟨none,0,0,[]⟩,false,[],[],[]⟩

/-- What `write` returns: a number of bytes, or -1 with `EAGAIN` or another error. -/
inductive Wrote where
  | bytes (n : Nat)
  | again
  | failed

/-- The size is put in front of a packet of which nothing is written yet. -/
def Charbuf.stamp (p : Charbuf) : List UInt8 := if p.solong = 0 then htonl p.sz.toNat ++ p.data.drop 4 else p.data

def writepdu (s : Sender) (n : Wrote) : Option (Sender × Bool) :=
  let p := s.wpdu
  if p.solong < 0 then none
  else if p.solong = p.sz then some (s,true)
  else match n with
    | .failed => some ({ s with wpdu := { p with data := p.stamp, solong := -1, sz := 0 } },false)
    | .again => some ({ s with wpdu := { p with data := p.stamp } },true)
    | .bytes n =>
      if p.sz < p.solong+n then none
      else some ({ s with wpdu := { p with data := p.stamp, solong := p.solong+n },
                          wire := s.wire++(p.stamp.drop p.solong.toNat).take n },true)

/-- The end of `send`. -/
def Sender.finish (s : Sender) : Sender :=
  { s with wpdu := ⟨none,0,0,[]⟩, sent := if !s.dead ∧ s.wpdu.solong = s.wpdu.sz then s.sent ++ [s.arg] else s.sent }

inductive SendLabel where
  /-- A call of `send` gets its turn. -/
  | send (b : List UInt8) (n : Wrote)
  /-- It goes on when the connection is dead or its packet written. -/
  | complete
  | writeCb (n : Wrote)
  /-- A failed read, or `closeconn`. -/
  | die

/-- A packet has room for its size, which is an `int`. -/
def sendNext (s : Sender) : SendLabel → Option Sender
  | .send b n =>
    if s.dead ∨ s.wpdu.buf.isSome ∨ b.length < 4 ∨ 2^31 ≤ b.length then none
    else (writepdu { s with wpdu := ⟨some b.length,b.length,0,b⟩, arg := b } n).map (fun (s,succ) =>
      if !succ then { s with dead := true } else if s.wpdu.solong = s.wpdu.sz then s.finish else s)
  | .complete =>
    if s.wpdu.buf.isSome ∧ (s.dead ∨ s.wpdu.solong < 0 ∨ s.wpdu.sz ≤ s.wpdu.solong) then some s.finish else none
  | .writeCb n =>
    if s.dead then none
    else if s.wpdu.sz = 0 then some s
    else (writepdu s n).map (fun (s,succ) => { s with dead := !succ })
  | .die => some { s with dead := true }

lemma ntohl_htonl {n : Nat} (small : n < 2^31) : ntohl (htonl n) = n := by
  have bytes : (htonl n).foldl (fun n b => 256*n+b.toNat) 0 = n := by
    simp [htonl]
    omega
  unfold ntohl
  rw [bytes]
  exact Int.bmod_eq_of_le (by omega) (by omega)

/-- The packet for an argument of `send`: its size, and what stands behind the room for it. -/
def packet (b : List UInt8) : List UInt8 := htonl b.length ++ b.drop 4

def Fits (b : List UInt8) : Prop := 4 ≤ b.length ∧ b.length < 2^31

lemma length_packet (fits : Fits b) : (packet b).length = b.length := by
  have := fits.1
  simp [packet,htonl]
  omega

lemma ntohl_packet (fits : Fits b) : ntohl ((packet b).take 4) = (packet b).length := by
  rw [length_packet fits]
  exact ntohl_htonl fits.2

section
variable {s t : Sender} {w : Wrote} {label : SendLabel} {n : Nat}

/-- `n` bytes of the packet in `wpdu_` have been written. -/
structure Sender.Writes (s : Sender) (n : Nat) : Prop where
  busy : s.wpdu.buf.isSome
  solong : s.wpdu.solong = n
  sz : s.wpdu.sz = s.arg.length
  inside : n ≤ s.arg.length
  fits : Fits s.arg
  stamp : s.wpdu.stamp = packet s.arg

structure Sender.Inv (s : Sender) : Prop where
  fits : ∀ b ∈ s.sent, Fits b
  wire : ∃ n, s.wire = (s.sent.map packet).flatten++(packet s.arg).take n ∧
    (s.dead = false → s.wpdu = ⟨none,0,0,[]⟩ ∧ n = 0 ∨ s.Writes n)

lemma stamp_packet {p : Charbuf} (sz : p.sz = b.length) (data : p.data = packet b) : p.stamp = packet b := by
  unfold Charbuf.stamp
  split
  · rw [sz,data,Int.toNat_natCast]
    rfl
  · exact data

lemma writepdu_writes (writes : s.Writes n) (wire : s.wire = l++(packet s.arg).take n)
    (done : writepdu s w = some (t,succ)) : t.sent = s.sent ∧
      ∃ m, t.wire = l++(packet t.arg).take m ∧ (succ = true → t.Writes m) := by
  obtain ⟨busy,solong,sz,inside,fits,stamp⟩ := id writes
  simp only [writepdu,solong,Int.not_lt.mpr (Int.natCast_nonneg n),if_false] at done
  split at done
  · cases done
    exact ⟨rfl,n,wire,fun _ => writes⟩
  · cases w with
    | failed =>
      cases done
      exact ⟨rfl,n,wire,nofun⟩
    | again =>
      cases done
      exact ⟨rfl,n,wire,fun _ => ⟨busy,rfl,sz,inside,fits,stamp_packet sz stamp⟩⟩
    | bytes k =>
      obtain ⟨small,done⟩ := Option.ite_none_left_eq_some.mp done
      cases done
      refine ⟨rfl,n+k,?_,fun _ => ⟨busy,rfl,sz,by dsimp only; omega,fits,stamp_packet sz stamp⟩⟩
      simp only [wire,stamp,Int.toNat_natCast,append_assoc,take_add]

lemma Sender.Inv.finish (inv : s.Inv) (busy : s.wpdu.buf.isSome) (ended : s.dead = false → s.wpdu.sz ≤ s.wpdu.solong) :
    s.finish.Inv := by
  obtain ⟨fits,n,wire,alive⟩ := inv
  unfold Sender.finish
  cases dead : s.dead with
  | true => exact ⟨by simpa using fits,n,by simpa using wire,nofun⟩
  | false =>
    rcases alive dead with ⟨idle,_⟩ | ⟨_,solong,sz,inside,fits',_⟩
    · simp [idle] at busy
    · have ended := ended dead
      have full : s.wpdu.solong = s.wpdu.sz := by omega
      have all : (packet s.arg).length ≤ n := by
        rw [length_packet fits']
        omega
      simp only [full,Bool.not_false,and_self,if_true]
      refine ⟨?_,0,by simp [wire,take_of_length_le all],fun _ => .inl ⟨rfl,rfl⟩⟩
      intro b mem
      rcases mem_append.mp mem with old | new
      · exact fits b old
      · exact mem_singleton.mp new ▸ fits'

lemma Sender.Inv.next (inv : s.Inv) (moved : sendNext s label = some t) : t.Inv := by
  obtain ⟨fits,n,wire,alive⟩ := id inv
  cases label with
  | send b w =>
    obtain ⟨free,moved⟩ := Option.ite_none_left_eq_some.mp moved
    simp only [not_or,Bool.not_eq_true,Nat.not_lt,Nat.not_le] at free
    obtain ⟨⟨u,succ⟩,wrote,rfl⟩ := Option.map_eq_some_iff.mp moved
    rcases alive free.1 with ⟨_,rfl⟩ | writes
    · obtain ⟨sent,m,wire,writes⟩ := writepdu_writes (s := { s with wpdu := ⟨some b.length,b.length,0,b⟩, arg := b })
        ⟨rfl,rfl,rfl,Nat.zero_le _,free.2.2,rfl⟩ wire wrote
      cases succ with
      | false => exact ⟨sent ▸ fits,m,sent ▸ wire,nofun⟩
      | true =>
        have inv : u.Inv := ⟨sent ▸ fits,m,sent ▸ wire,fun _ => .inr (writes rfl)⟩
        simp only [Bool.not_true,Bool.false_eq_true,if_false]
        split
        · next full => exact inv.finish (writes rfl).busy (fun _ => full.ge)
        · exact inv
    · exact absurd writes.busy (by simp [free.2.1])
  | complete =>
    obtain ⟨⟨busy,ended⟩,moved⟩ := Option.ite_none_right_eq_some.mp moved
    cases moved
    refine inv.finish busy fun living => ?_
    -- only a failed write makes `solong` negative
    rcases alive living with ⟨idle,_⟩ | writes
    · simp [idle]
    · have solong := writes.solong
      simp only [living,Bool.false_eq_true,false_or] at ended
      omega
  | writeCb w =>
    obtain ⟨living,moved⟩ := Option.ite_none_left_eq_some.mp moved
    split at moved
    · exact Option.some.inj moved ▸ inv
    · next filled =>
      obtain ⟨⟨u,succ⟩,wrote,rfl⟩ := Option.map_eq_some_iff.mp moved
      rcases alive (by simpa using living) with ⟨idle,_⟩ | writes
      · simp [idle] at filled
      · obtain ⟨sent,m,wire,writes⟩ := writepdu_writes writes wire wrote
        exact ⟨sent ▸ fits,m,sent ▸ wire,fun kept => .inr { writes (by simpa using kept) with }⟩
  | die =>
    cases moved
    exact ⟨fits,n,wire,nofun⟩

/-- However writes are cut and calls and callbacks interleave, the socket gets the packets of the calls of `send` that returned
true, whole, in order and each with its size in front, and behind them at most a part of the packet of the last call, nothing
when no packet is being sent. -/
theorem wire_has_packets (reached : Reach (· = Sender.start) anyStep sendNext s) :
    (∀ b ∈ s.sent, (packet b).length = b.length ∧ ntohl ((packet b).take 4) = (packet b).length) ∧
    ∃ n, s.wire = (s.sent.map packet).flatten++(packet s.arg).take n ∧ (s.dead = false → s.wpdu.buf = none → n = 0) := by
  have inv : s.Inv := by
    refine Reach.invariant ?_ (fun s label t inv _ moved => inv.next moved) s reached
    rintro _ rfl
    exact ⟨nofun,0,rfl,fun _ => .inl ⟨rfl,rfl⟩⟩
  obtain ⟨fits,n,wire,alive⟩ := inv
  refine ⟨fun b mem => ⟨length_packet (fits b mem),ntohl_packet (fits b mem)⟩,n,wire,fun living free => ?_⟩
  rcases alive living with ⟨_,nothing⟩ | writes
  · exact nothing
  · exact absurd writes.busy (by simp [free])

theorem wire_has_packets_cut : ∃ s, Reach (· = Sender.start) anyStep sendNext s ∧ s.sent = [[1,1,1,1,9]] ∧ s.arg = [1,1,1,1] ∧ s.wire = [0,0,0,5,9,0,0] ∧
    (∀ b ∈ s.sent, (packet b).length = b.length ∧ ntohl ((packet b).take 4) = (packet b).length) ∧
    ∃ n, s.wire = (s.sent.map packet).flatten++(packet s.arg).take n ∧ (s.dead = false → s.wpdu.buf = none → n = 0) := by
  obtain ⟨s,reached,sent,arg,wire⟩ : ∃ s, Reach (· = Sender.start) anyStep sendNext s ∧ s.sent = [[1,1,1,1,9]] ∧ s.arg = [1,1,1,1] ∧ s.wire = [0,0,0,5,9,0,0] :=
    exists_reach_from rfl [.send [1,1,1,1,9] (.bytes 3),.writeCb (.bytes 2),.complete,.send [1,1,1,1] (.bytes 2)] (by decide +kernel)
  exact ⟨s,reached,sent,arg,wire,wire_has_packets reached⟩

end

end CodeExercise.Connection
