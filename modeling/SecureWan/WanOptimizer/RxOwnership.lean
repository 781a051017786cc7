import SecureWan.WanOptimizer.RxThread
import SecureWan.Lib.Custody
import Mathlib.Algebra.Order.Group.Multiset
import Mathlib.Data.Multiset.OrderedMonoid
import Mathlib.Data.Fintype.Basic
import Mathlib.Data.Multiset.Range
import Mathlib.Tactic.Abel

/-!
# Who owns a received mbuf

Every exit of the loop body frees the mbuf, puts it on a ring or leaves it with a fragment table,
and a reassembly takes back what its table had. The one fault is a copy for `tcp_input` that is
used before it is tested.
-/

namespace SecureWan.WanOptimizer.AppRx

instance : Fintype Layer := ⟨{.outer, .inner}, fun layer => by cases layer <;> decide⟩

/-- The mbufs of a packet. -/
def pkt (m : RxPacket) : Multiset ℕ := m.mbufs

namespace RxLcore

/-- What is in the tables, freed or on the ring. -/
def held (s : RxLcore) : Multiset ℕ :=
  ∑ layer, ((s.table layer).map pkt).sum + (s.freed : Multiset ℕ) + (s.rxRing : Multiset ℕ)

/-- What was taken from a pool. -/
def taken (s : RxLcore) : Multiset ℕ := Multiset.range s.nextMbuf

/-- Every mbuf that was taken is freed once or in one other place. -/
def Conserved (s : RxLcore) : Prop := Custody.Balanced held taken s

/-- A part of the loop, with what it has in hand before and after. -/
abbrev Moves (s : RxLcore) (hand : Multiset ℕ) (s' : RxLcore) (out : Multiset ℕ) : Prop :=
  Custody.Moves held taken s hand s' out

end RxLcore

open RxLcore

section Moves

variable {cfg : RxConfig} {portid : ℕ} {o : Outcome} {s : RxLcore}

/-- The packets of a list, chain by chain. -/
theorem sum_pkt (ps : List RxPacket) :
    (ps.map pkt).sum = (ps.flatMap RxPacket.mbufs : Multiset ℕ) := by
  induction ps with
  | nil => rfl
  | cons p ps ih =>
    rw [List.map_cons, List.sum_cons, ih, List.flatMap_cons, pkt, Multiset.coe_add]

theorem moves_free (mbufs : List ℕ) : s.Moves mbufs (s.free mbufs) 0 := by
  refine .of_eq ?_ rfl
  simp only [held, free, ← Multiset.coe_add, add_zero]
  abel

theorem moves_sendSchedulePkt (mbufs : List ℕ) :
    s.Moves mbufs (s.sendSchedulePkt o mbufs) 0 := by
  unfold sendSchedulePkt
  split
  · exact moves_free mbufs
  split
  · exact moves_free mbufs
  refine .of_eq ?_ rfl
  simp only [held, ← Multiset.coe_add, add_zero]
  abel

theorem moves_alloc : s.Moves 0 s.alloc ([s.nextMbuf] : List ℕ) := by
  refine ⟨([s.nextMbuf] : List ℕ), by rw [add_zero]; rfl, ?_⟩
  change Multiset.range (s.nextMbuf + 1) = Multiset.range s.nextMbuf + {s.nextMbuf}
  rw [Multiset.range_succ, ← Multiset.singleton_add, add_comm]

/-- The mbuf of `send_etherpkt` is its own. -/
theorem yields_sendEtherpkt : (s.sendEtherpkt o).Yields fun s' => s.Moves 0 s' 0 := by
  unfold sendEtherpkt
  split
  · exact Logged.yields_pure (.refl s 0)
  · refine Logged.yields_bind_any fun _ => Logged.yields_pure ?_
    exact moves_alloc.trans (moves_sendSchedulePkt [s.nextMbuf])

/-- Replacing what a table holds. -/
theorem sum_table_update (layer : Layer) (ps : List RxPacket) :
    ∑ l, ((Function.update s.table layer ps l).map pkt).sum + ((s.table layer).map pkt).sum =
      ∑ l, ((s.table l).map pkt).sum + (ps.map pkt).sum :=
  Custody.sum_update s.table layer ps fun ps => (ps.map pkt).sum

/-- A reassembly function returns what it takes from its table. -/
theorem sum_reassemble (table : List RxPacket) (m : RxPacket) (r : Reassembled) :
    ((reassemble table m r).2.map pkt).sum + ((reassemble table m r).1.toList.map pkt).sum =
      (table.map pkt).sum + pkt m := by
  cases r with
  | held =>
    rw [reassemble, Option.toList_none, List.map_nil, List.sum_nil, add_zero, List.map_append,
      List.sum_append, List.map_singleton, List.sum_singleton]
  | complete others first data behind =>
    have hsplit := Custody.sum_filter_add_sum_filter_not table others pkt
    rw [reassemble, Option.toList_some, List.map_singleton, List.sum_singleton, ← hsplit,
      sum_pkt (table.filter others)]
    cases first with
    | true =>
      rw [if_pos rfl, pkt, pkt, ← Multiset.coe_add]
      abel
    | false =>
      rw [if_neg (by decide), pkt, pkt, ← Multiset.coe_add]
      abel

/-- A fragment goes to the table, and a complete packet comes back. -/
theorem moves_reassemble (layer : Layer) (m : RxPacket) (r : Reassembled) :
    s.Moves (pkt m)
      { s with table := Function.update s.table layer (reassemble (s.table layer) m r).2 }
      ((reassemble (s.table layer) m r).1.toList.map pkt).sum := by
  refine .exchange (x := ((s.table layer).map pkt).sum)
    (y := ((reassemble (s.table layer) m r).2.map pkt).sum) ?_ (sum_reassemble _ m r) rfl
  have hupdate := sum_table_update (s := s) layer (reassemble (s.table layer) m r).2
  simp only [held]
  rw [add_right_comm, add_right_comm _ (s.freed : Multiset ℕ), hupdate]
  abel

/-- Expired fragments are freed. -/
theorem moves_freeDeathRow (layer : Layer) (expired : RxPacket → Bool) :
    s.Moves 0 (s.freeDeathRow layer expired) 0 := by
  refine .exchange (x := ((s.table layer).map pkt).sum) (y := ((s.table layer).map pkt).sum) ?_
    (by rw [add_zero]) rfl
  have hupdate := sum_table_update (s := s) layer
    ((s.table layer).filter fun p => !expired p)
  have hsplit := Custody.sum_filter_add_sum_filter_not (s.table layer) expired pkt
  simp only [held, freeDeathRow, ← Multiset.coe_add, ← sum_pkt]
  calc _ = ∑ l, ((Function.update s.table layer
          ((s.table layer).filter fun p => !expired p) l).map pkt).sum +
          ((s.table layer).map pkt).sum + (((s.table layer).filter expired).map pkt).sum +
          (s.freed : Multiset ℕ) + (s.rxRing : Multiset ℕ) := by abel
    _ = _ := by
      rw [hupdate, ← hsplit]
      abel

/-- Linearizing keeps the first mbuf of a packet. -/
theorem moves_linearize (m : RxPacket) :
    s.Moves (pkt m) (s.linearize m) (m.mbufs.take 1 : List ℕ) := by
  have hsplit : pkt m = (m.mbufs.tail : Multiset ℕ) + (m.mbufs.take 1 : List ℕ) := by
    cases hm : m.mbufs with
    | nil => rw [pkt, hm]; rfl
    | cons id ids =>
      rw [pkt, hm, List.tail_cons, List.take_succ_cons, List.take_zero, Multiset.coe_add]
      exact Multiset.coe_eq_coe.mpr (List.perm_append_singleton id ids).symm
  have hfree := (moves_free (s := s) m.mbufs.tail).frame (m.mbufs.take 1 : List ℕ)
  rw [zero_add, ← hsplit] at hfree
  exact hfree

/-- **Reassembly.** The packet in hand is freed, kept, or replaced by the one that it completes. -/
theorem yields_reassembly (layer : Layer) (part : Part) (r : Reassembly) (front : ℕ)
    (m : RxPacket) : (s.reassembly layer part r front m).Yields
      fun a => s.Moves (pkt m) a.1 (a.2.toList.map pkt).sum := by
  let cut : RxPacket := { m with data := m.data.drop front }
  let table := (reassemble (s.table layer) cut r.result).2
  let stored : RxLcore := { s with table := Function.update s.table layer table }
  have htable := moves_reassemble (s := s) layer cut r.result
  have hexpired := (moves_freeDeathRow (s := stored) layer r.expired).under
    ((reassemble (s.table layer) cut r.result).1.toList.map pkt).sum
  rw [zero_add] at hexpired
  have hafter := htable.trans hexpired
  unfold reassembly
  refine Logged.yields_bind_any fun saved => ?_
  split
  · exact Logged.yields_pure (moves_free m.mbufs)
  refine Logged.yields_bind_any fun _ => ?_
  dsimp only
  cases hwhole : (reassemble (s.table layer) cut r.result).1 with
  | none =>
    rw [hwhole] at hafter
    exact Logged.yields_pure hafter
  | some whole =>
    rw [hwhole, Option.toList_some, List.map_singleton, List.sum_singleton] at hafter
    refine Logged.yields_bind_any fun _ => ?_
    split
    · exact Logged.yields_pure (hafter.trans (moves_free whole.mbufs))
    have hlinear := hafter.trans (moves_linearize whole)
    split
    · exact Logged.yields_pure (hlinear.trans (moves_free (whole.mbufs.take 1)))
    · apply Logged.yields_pure
      rw [Option.toList_some, List.map_singleton, List.sum_singleton]
      exact hlinear

end Moves

section Branches

variable {cfg : RxConfig} {portid : ℕ} {o : Outcome} {s : RxLcore} {m : RxPacket} {greLen : ℕ}

/-- A branch puts away the packet in hand. -/
def PutsAway (s : RxLcore) (m : RxPacket) (x : Logged Step RxLcore) : Prop :=
  x.Yields fun s' => s.Moves (pkt m) s' 0

theorem putsAway_free : PutsAway s m (pure (s.free m.mbufs)) :=
  Logged.yields_pure (moves_free m.mbufs)

theorem putsAway_sendSchedulePkt : PutsAway s m (pure (s.sendSchedulePkt o m.mbufs)) :=
  Logged.yields_pure (moves_sendSchedulePkt m.mbufs)

theorem putsAway_l2fwdSimpleForward : PutsAway s m (pure (s.l2fwdSimpleForward o m.mbufs)) :=
  putsAway_sendSchedulePkt

/-- A packet is sent as a copy, and its mbuf is freed. -/
theorem putsAway_sendEtherpkt :
    PutsAway s m (do
      let s ← s.sendEtherpkt o
      pure (s.free m.mbufs)) := by
  refine Logged.yields_bind yields_sendEtherpkt fun s' hsend => Logged.yields_pure ?_
  have hunder := hsend.under (pkt m)
  rw [zero_add] at hunder
  exact hunder.trans (moves_free m.mbufs)

theorem putsAway_processArpPkt : PutsAway s m (processArpPkt cfg portid o s m) := by
  unfold processArpPkt
  split
  · exact putsAway_sendEtherpkt
  refine Logged.yields_bind_any fun arpTip => ?_
  split
  · refine Logged.yields_bind_any fun arpOpcode => ?_
    split
    · exact putsAway_free
    split
    · exact putsAway_sendSchedulePkt
    · exact putsAway_free
  · exact putsAway_sendEtherpkt

theorem putsAway_rxTcp : PutsAway s m (rxTcp cfg o s m greLen) := by
  unfold rxTcp
  refine Logged.yields_bind_any fun isMatch => ?_
  split
  · exact Logged.yields_bind_any fun _ => putsAway_free
  · exact putsAway_free

theorem putsAway_rxUdp : PutsAway s m (rxUdp cfg portid o s m greLen) := by
  unfold rxUdp
  refine Logged.yields_bind_any fun dstPort => ?_
  split
  · split
    · split
      · exact putsAway_free
      · exact putsAway_l2fwdSimpleForward
    split
    · refine Logged.yields_bind_any fun isRtp => ?_
      split
      · exact putsAway_free
      · exact putsAway_l2fwdSimpleForward
    · exact putsAway_l2fwdSimpleForward
  · exact putsAway_l2fwdSimpleForward

theorem putsAway_rxProto : PutsAway s m (rxProto cfg portid o s m greLen) := by
  unfold rxProto
  refine Logged.yields_bind_any fun _ => Logged.yields_bind_any fun proto => ?_
  split
  · exact putsAway_sendEtherpkt
  split
  · exact putsAway_free
  split
  · exact putsAway_rxTcp
  split
  · exact putsAway_rxUdp
  · exact putsAway_l2fwdSimpleForward

/-- Behind a reassembly the packet is another one, if there is one. -/
theorem putsAway_reassembly {layer : Layer} {part : Part} {r : Reassembly} {front : ℕ}
    {f : RxLcore × Option RxPacket → Logged Step RxLcore}
    (hnone : ∀ s', (f (s', none)) = pure s')
    (hsome : ∀ s' whole, PutsAway s' whole (f (s', some whole))) :
    PutsAway s m (s.reassembly layer part r front m >>= f) := by
  refine Logged.yields_bind (yields_reassembly layer part r front m) fun a hmoves => ?_
  obtain ⟨s', whole⟩ := a
  cases whole with
  | none =>
    rw [hnone]
    exact Logged.yields_pure hmoves
  | some whole =>
    rw [Option.toList_some, List.map_singleton, List.sum_singleton] at hmoves
    have hrest : s'.Moves (pkt whole) (f (s', some whole)).value 0 := hsome s' whole
    exact hmoves.trans hrest

/-- Rewriting the outer header keeps the mbufs. -/
theorem pkt_rewriteOuter (cfg : RxConfig) (m : RxPacket) (greLen innerLen : ℕ) :
    pkt (rewriteOuter cfg m greLen innerLen) = pkt m := by
  rw [pkt, rewriteOuter, pkt]

theorem putsAway_rxGre : PutsAway s m (rxGre cfg portid o s m greLen) := by
  unfold rxGre
  refine Logged.yields_bind_any fun fragmentOffset => ?_
  split
  · refine putsAway_reassembly (fun s' => rfl) fun s' whole => ?_
    refine Logged.yields_bind_any fun innerLen => ?_
    have hproto : PutsAway s' (rewriteOuter cfg whole greLen innerLen)
        (rxProto cfg portid o s' (rewriteOuter cfg whole greLen innerLen) greLen) :=
      putsAway_rxProto
    rwa [PutsAway, pkt_rewriteOuter] at hproto
  · exact putsAway_rxProto

theorem putsAway_rxInner : PutsAway s m (rxInner cfg portid o s m) := by
  unfold rxInner
  refine Logged.yields_bind_any fun proto => ?_
  split
  · exact Logged.yields_bind_any fun flags => putsAway_rxGre
  · exact putsAway_rxProto

theorem putsAway_rxIpv4 : PutsAway s m (rxIpv4 cfg portid o s m) := by
  unfold rxIpv4
  refine Logged.yields_bind_any fun ipLen => Logged.yields_bind_any fun fragmentOffset => ?_
  split
  · exact putsAway_reassembly (fun s' => rfl) fun s' whole => putsAway_rxInner
  split
  · exact putsAway_free
  · exact putsAway_rxInner

/-- **One frame.** The mbuf in hand is put away on every path. -/
theorem putsAway_rxPacket : PutsAway s m (rxPacket cfg portid o s m) := by
  unfold rxPacket
  refine Logged.yields_bind_any fun _ => Logged.yields_bind_any fun etherType => ?_
  split
  · exact putsAway_processArpPkt
  split
  · exact putsAway_rxIpv4
  · exact putsAway_l2fwdSimpleForward

end Branches

/-! ### Null pointers -/

/-- A pointer that is dereferenced is not null. -/
def Step.NotNull : Step → Prop
  | .access _ _ _ _ => True
  | .sub _ _ => True
  | .deref isNull => isNull = false

/-- `verify_tcp_checksum` accepts the segment, for the length that it computes. -/
def Accepted (m : RxPacket) (greLen : ℕ) : Prop :=
  Rxbuf.verifyTcpChecksum (m.load (34 + greLen) ((totalLength m greLen + 2 ^ 16 - 20) % 2 ^ 16))
    (m.load (14 + greLen) 20) (totalLength m greLen) = 1

/-- A small accepted TCP segment with payload for which `m_devget` returns `NULL`. -/
structure NullCopy (cfg : RxConfig) (o : Outcome) (m : RxPacket) (greLen : ℕ) : Prop where
  tcp : m.byteAt (23 + greLen) = 0x06
  accepted : Accepted m greLen
  payload : totalLength m greLen ≠ 20 + tcphlen m greLen
  small : totalLength m greLen < cfg.minclsize
  fails : o.devget.isSome = true

section Reaches

variable (cfg : RxConfig) (o : Outcome) (q : RxPacket → ℕ → Prop)

/-- A GRE frame gets to the branches on the protocol, with a condition on the packet there. -/
def ReachesGre (s : RxLcore) (m : RxPacket) (greLen : ℕ) : Prop :=
  if isFragment (m.field16 (20 + greLen)) then
    ∃ whole, s.reassembled .inner .innerHeader o.inner (14 + greLen) m = some whole ∧
      q (rewriteOuter cfg whole greLen (whole.field16 (16 + greLen))) greLen
  else q m greLen

/-- The same for a frame that is plain or GRE. -/
def ReachesInner (s : RxLcore) (m : RxPacket) : Prop :=
  if m.byteAt 23 = 0x2f then ReachesGre cfg o q s m (greLenOf (m.byteAt 34)) else q m 0

/-- The same for a received frame: it is an IPv4 frame, and a whole one that the length check
lets pass, or the last of its fragments. -/
def Reaches (s : RxLcore) (m : RxPacket) : Prop :=
  m.field16 12 = 0x0800 ∧
    if isFragment (m.field16 20) then
      ∃ whole, s.reassembled .outer .outerHeader o.outer 14 m = some whole ∧
        ReachesInner cfg o q (s.reassembly .outer .outerHeader o.outer 14 m).value.1 whole
    else ¬LengthMismatch m ∧ ReachesInner cfg o q s m

end Reaches

section NotNull

variable {cfg : RxConfig} {portid : ℕ} {o : Outcome} {m : RxPacket} {greLen : ℕ}

theorem notNull_read {part : Part} {off n : ℕ} : (read part m off n).All Step.NotNull :=
  Logged.all_step.mpr trivial

theorem notNull_readByte {part : Part} {off : ℕ} : (readByte part m off).All Step.NotNull :=
  Logged.all_step.mpr trivial

theorem notNull_readField16 {part : Part} {off : ℕ} :
    (readField16 part m off).All Step.NotNull :=
  Logged.all_step.mpr trivial

theorem notNull_diff {width a b : ℕ} : (diff width a b).All Step.NotNull :=
  Logged.all_step.mpr trivial

theorem notNull_deref : (deref false).All Step.NotNull := Logged.all_step.mpr rfl

theorem notNull_sendEtherpkt (s : RxLcore) : (s.sendEtherpkt o).All Step.NotNull :=
  all_sendEtherpkt s rfl

theorem notNull_reassembly (s : RxLcore) (layer : Layer) (part : Part) (r : Reassembly)
    (front : ℕ) : (s.reassembly layer part r front m).All Step.NotNull :=
  all_reassembly s layer r notNull_read notNull_readByte rfl

theorem notNull_processArpPkt (s : RxLcore) :
    (processArpPkt cfg portid o s m).All Step.NotNull :=
  all_processArpPkt s notNull_read notNull_readField16 rfl

theorem notNull_verifyTcp : (verifyTcp m greLen).All Step.NotNull := by
  unfold verifyTcp
  refine Logged.all_bind.mpr ⟨notNull_readField16, ?_⟩
  refine Logged.all_bind.mpr ⟨notNull_diff, ?_⟩
  refine Logged.all_bind.mpr ⟨notNull_read, ?_⟩
  refine Logged.all_bind.mpr ⟨notNull_read, ?_⟩
  exact Logged.all_bind.mpr ⟨notNull_readByte, Logged.all_pure _⟩

theorem value_verifyTcp_iff : (verifyTcp m greLen).value = true ↔ Accepted m greLen := by
  unfold verifyTcp Accepted totalLength
  simp only [Logged.value_bind, Logged.value_pure, value_readField16, value_read, diff,
    Logged.value_step, beq_iff_eq]

theorem notNull_mDevget (len : ℕ) : (mDevget o m greLen len).All Step.NotNull := by
  unfold mDevget
  exact Logged.all_bind.mpr ⟨notNull_read, Logged.all_pure _⟩

theorem value_mDevget (len : ℕ) : (mDevget o m greLen len).value = o.devget.isSome := by
  unfold mDevget
  rw [Logged.value_bind, Logged.value_pure]

/-- The copy is used untested where it is asked for with room for a cluster. -/
theorem notNull_rxDevget (total payloadLen : ℕ) :
    (rxDevget cfg o m greLen total payloadLen).All Step.NotNull ↔
      ¬(payloadLen ≠ 0 ∧ total < cfg.minclsize ∧ o.devget.isSome = true) := by
  unfold rxDevget
  by_cases hempty : payloadLen = 0
  · rw [if_pos hempty]
    exact iff_of_true (notNull_mDevget total) fun h => h.1 hempty
  rw [if_neg hempty]
  by_cases hsmall : total < cfg.minclsize
  · rw [if_pos hsmall, Logged.all_bind, and_iff_right (notNull_mDevget cfg.minclsize),
      value_mDevget, Logged.all_bind, and_iff_left (Logged.all_pure _), deref, Logged.all_step,
      Step.NotNull]
    simp only [hempty, hsmall, ne_eq, not_false_eq_true, true_and, Bool.not_eq_true]
  · rw [if_neg hsmall]
    exact iff_of_true (notNull_mDevget total) fun h => hsmall h.2.1

/-- The difference of the lengths is zero when the segment is a bare header. -/
theorem payloadLen_eq_zero_iff :
    (diff 32 (diff 32 (totalLength m greLen) 20).value (tcphlen m greLen)).value = 0 ↔
      totalLength m greLen = 20 + tcphlen m greLen := by
  have hlt := totalLength_lt m greLen
  have hoffset := (m.byteAt (46 + greLen)).toNat_lt
  have htcphlen : tcphlen m greLen ≤ 60 := by
    unfold tcphlen
    omega
  rw [diff, diff, Logged.value_step, Logged.value_step]
  omega

theorem notNull_rxTcpInput :
    (rxTcpInput cfg o m greLen).All Step.NotNull ↔
      ¬(totalLength m greLen ≠ 20 + tcphlen m greLen ∧ totalLength m greLen < cfg.minclsize ∧
        o.devget.isSome = true) := by
  have htcphlen : (readTcphlen m greLen).All Step.NotNull :=
    Logged.all_bind.mpr ⟨notNull_readByte, Logged.all_pure _⟩
  have hvalue : (readTcphlen m greLen).value = tcphlen m greLen := by
    rw [readTcphlen, Logged.value_bind, Logged.value_pure, value_readByte, tcphlen]
  have htotal : m.field16 (16 + greLen) = totalLength m greLen := rfl
  have hlast (isNull : Bool) : Logged.All Step.NotNull
      (if isNull then pure () else do
        let _ ← readByte .innerHeader m (14 + greLen)
        pure ()) := by
    cases isNull with
    | true => exact Logged.all_pure ()
    | false => exact Logged.all_bind.mpr ⟨notNull_readByte, Logged.all_pure ()⟩
  unfold rxTcpInput
  rw [Logged.all_bind, and_iff_right notNull_readField16, value_readField16, htotal,
    Logged.all_bind, and_iff_right notNull_diff, Logged.all_bind, and_iff_right htcphlen, hvalue,
    Logged.all_bind, and_iff_right notNull_diff, Logged.all_bind, and_iff_left (hlast _),
    notNull_rxDevget, ne_eq, payloadLen_eq_zero_iff]

theorem notNull_rxTcp (s : RxLcore) (htcp : m.byteAt (23 + greLen) = 0x06) :
    (rxTcp cfg o s m greLen).All Step.NotNull ↔ ¬NullCopy cfg o m greLen := by
  unfold rxTcp
  rw [Logged.all_bind, and_iff_right notNull_verifyTcp]
  by_cases haccepted : Accepted m greLen
  · rw [if_pos (value_verifyTcp_iff.mpr haccepted), Logged.all_bind,
      and_iff_left (Logged.all_pure _), notNull_rxTcpInput]
    refine not_congr ⟨fun h => ⟨htcp, haccepted, h.1, h.2.1, h.2.2⟩, fun h => ?_⟩
    exact ⟨h.payload, h.small, h.fails⟩
  · rw [if_neg fun h => haccepted (value_verifyTcp_iff.mp h)]
    exact iff_of_true (Logged.all_pure _) fun h => haccepted h.accepted

theorem notNull_isRtpVersion (off : ℕ) : (isRtpVersion m off).All Step.NotNull := by
  unfold isRtpVersion
  refine Logged.all_bind.mpr ⟨notNull_readByte, Logged.all_guard.mpr fun _ => ?_⟩
  refine Logged.all_bind.mpr ⟨notNull_readByte, Logged.all_guard.mpr fun _ => ?_⟩
  exact Logged.all_pure _

theorem notNull_isRtpHdr (off : ℕ) : (isRtpHdr cfg m off).All Step.NotNull := by
  unfold isRtpHdr
  refine Logged.all_bind.mpr ⟨notNull_readField16, ?_⟩
  refine Logged.all_bind.mpr ⟨notNull_readField16, ?_⟩
  refine Logged.all_bind.mpr ⟨notNull_readField16, ?_⟩
  -- the ports and the length end it, or the RTP header is looked at
  refine Logged.all_guard.mpr fun _ => Logged.all_guard.mpr fun _ => ?_
  refine Logged.all_guard.mpr fun _ => Logged.all_guard.mpr fun _ => ?_
  refine Logged.all_bind.mpr ⟨notNull_diff, Logged.all_guard.mpr fun _ => ?_⟩
  exact notNull_isRtpVersion _

theorem notNull_rxUdp (s : RxLcore) :
    (rxUdp cfg portid o s m greLen).All Step.NotNull := by
  unfold rxUdp
  refine Logged.all_bind.mpr ⟨notNull_readField16, ?_⟩
  split
  · split
    · split <;> exact Logged.all_pure _
    split
    · refine Logged.all_bind.mpr ⟨notNull_isRtpHdr _, ?_⟩
      split <;> exact Logged.all_pure _
    · exact Logged.all_pure _
  · exact Logged.all_pure _

theorem notNull_rxProto (s : RxLcore) :
    (rxProto cfg portid o s m greLen).All Step.NotNull ↔ ¬NullCopy cfg o m greLen := by
  unfold rxProto
  rw [Logged.all_bind, and_iff_right notNull_read, Logged.all_bind,
    and_iff_right notNull_readByte, value_readByte]
  by_cases htcp : m.byteAt (23 + greLen) = 0x06
  · rw [htcp, if_neg (by decide), if_neg (by decide), if_pos rfl, notNull_rxTcp s htcp]
  · refine iff_of_true ?_ fun h => htcp h.tcp
    rw [if_neg htcp]
    split
    · exact Logged.all_bind.mpr ⟨notNull_sendEtherpkt s, Logged.all_pure _⟩
    split
    · exact Logged.all_pure _
    split
    · exact notNull_rxUdp s
    · exact Logged.all_pure _

/-- Behind a reassembly there is another packet, if there is one. -/
theorem notNull_behind_reassembly {s : RxLcore} {layer : Layer} {part : Part} {r : Reassembly}
    {front : ℕ} {f : RxLcore × Option RxPacket → Logged Step RxLcore}
    {q : RxLcore → RxPacket → Prop} (hnone : ∀ s', f (s', none) = pure s')
    (hsome : ∀ s' whole, (f (s', some whole)).All Step.NotNull ↔ ¬q s' whole) :
    (s.reassembly layer part r front m >>= f).All Step.NotNull ↔
      ¬∃ whole, s.reassembled layer part r front m = some whole ∧
        q (s.reassembly layer part r front m).value.1 whole := by
  rw [Logged.all_bind, and_iff_right (notNull_reassembly s layer part r front),
    RxLcore.reassembled]
  obtain ⟨s', whole⟩ := (s.reassembly layer part r front m).value
  cases whole with
  | none =>
    rw [hnone]
    exact iff_of_true (Logged.all_pure s') fun ⟨_, h, _⟩ => by cases h
  | some whole =>
    rw [hsome]
    refine not_congr ⟨fun h => ⟨whole, rfl, h⟩, fun ⟨_, hwhole, h⟩ => ?_⟩
    exact Option.some.inj hwhole ▸ h

theorem notNull_rxGre (s : RxLcore) :
    (rxGre cfg portid o s m greLen).All Step.NotNull ↔
      ¬ReachesGre cfg o (NullCopy cfg o) s m greLen := by
  unfold rxGre ReachesGre
  rw [Logged.all_bind, and_iff_right notNull_readField16, value_readField16]
  by_cases hfragment : isFragment (m.field16 (20 + greLen)) = true
  · rw [if_pos hfragment, if_pos hfragment]
    refine notNull_behind_reassembly (q := fun _ whole => NullCopy cfg o
      (rewriteOuter cfg whole greLen (whole.field16 (16 + greLen))) greLen) (fun s' => rfl)
      fun s' whole => ?_
    dsimp only
    rw [Logged.all_bind, and_iff_right notNull_readField16, value_readField16, notNull_rxProto]
  · rw [if_neg hfragment, if_neg hfragment, notNull_rxProto]

theorem notNull_rxInner (s : RxLcore) :
    (rxInner cfg portid o s m).All Step.NotNull ↔
      ¬ReachesInner cfg o (NullCopy cfg o) s m := by
  unfold rxInner ReachesInner
  rw [Logged.all_bind, and_iff_right notNull_readByte, value_readByte]
  by_cases hgre : m.byteAt 23 = 0x2f
  · rw [if_pos hgre, if_pos hgre, Logged.all_bind, and_iff_right notNull_readByte,
      value_readByte, notNull_rxGre]
  · rw [if_neg hgre, if_neg hgre, notNull_rxProto]

theorem notNull_rxIpv4 (s : RxLcore) (hipv4 : m.field16 12 = 0x0800) :
    (rxIpv4 cfg portid o s m).All Step.NotNull ↔ ¬Reaches cfg o (NullCopy cfg o) s m := by
  unfold rxIpv4 Reaches
  rw [Logged.all_bind, and_iff_right notNull_readField16, Logged.all_bind,
    and_iff_right notNull_readField16, value_readField16, value_readField16,
    and_iff_right hipv4]
  by_cases hfragment : isFragment (m.field16 20) = true
  · rw [if_pos hfragment, if_pos hfragment]
    exact notNull_behind_reassembly (fun s' => rfl) fun s' whole => notNull_rxInner s'
  · rw [if_neg hfragment, if_neg hfragment]
    by_cases hmismatch : m.pktLen ≠ m.field16 16 + 14 ∧ 46 < m.field16 16
    · rw [if_pos hmismatch]
      exact iff_of_true (Logged.all_pure _) fun h => h.1 hmismatch
    · rw [if_neg hmismatch, notNull_rxInner]
      exact not_congr ⟨fun h => ⟨hmismatch, h⟩, fun h => h.2⟩

/-- **Null pointers.** The copy is the only one that can be used. -/
theorem notNull_rxPacket (s : RxLcore) :
    (rxPacket cfg portid o s m).All Step.NotNull ↔ ¬Reaches cfg o (NullCopy cfg o) s m := by
  unfold rxPacket
  rw [Logged.all_bind, and_iff_right notNull_deref, Logged.all_bind,
    and_iff_right notNull_readField16, value_readField16]
  by_cases hipv4 : m.field16 12 = 0x0800
  · rw [hipv4, if_neg (by decide), if_pos rfl, notNull_rxIpv4 s hipv4]
  · refine iff_of_true ?_ fun h => hipv4 h.1
    rw [if_neg hipv4]
    split
    · exact notNull_processArpPkt s
    · exact Logged.all_pure _

end NotNull

/-! ### Bursts -/

/-- A received frame, with all that is decided while it is processed. -/
structure Received where
  data : Bytes
  behind : ℕ → UInt8
  outcome : Outcome

/-- The packet of a received frame, in the mbuf that is taken next. -/
def RxLcore.packet (s : RxLcore) (f : Received) : RxPacket := ⟨[s.nextMbuf], f.data, f.behind⟩

/-- One turn of the loop over a burst. -/
def rxTurn (cfg : RxConfig) (portid : ℕ) (s : RxLcore) (f : Received) : Logged Step RxLcore :=
  rxPacket cfg portid f.outcome s.alloc (s.packet f)

/-- The thread before its first burst. -/
def RxLcore.start : RxLcore := ⟨fun _ => [], [], [], 0⟩

theorem conserved_start : Conserved .start := by
  have hheld : held .start = 0 := by
    simp only [held, start, List.map_nil, List.sum_nil, Finset.sum_const_zero, Multiset.coe_nil,
      add_zero]
  rw [Conserved, Custody.Balanced, hheld, taken, start, Multiset.range_zero]

/-- **One turn.** Every mbuf is in one place again. -/
theorem conserved_rxTurn (cfg : RxConfig) (portid : ℕ) {s : RxLcore} (f : Received)
    (hs : s.Conserved) : (rxTurn cfg portid s f).value.Conserved := by
  have hturn : s.alloc.Moves (pkt (s.packet f)) (rxTurn cfg portid s f).value 0 :=
    putsAway_rxPacket
  exact (moves_alloc.trans hturn).balanced hs

/-- A turn uses no null pointer, and after it every mbuf that was taken is freed once, on the
ring or with a fragment table. -/
def Owned (cfg : RxConfig) (portid : ℕ) (s : RxLcore) (f : Received) : Prop :=
  (rxTurn cfg portid s f).All Step.NotNull ∧ (rxTurn cfg portid s f).value.Conserved

/-- The frame gets to the copy of a small segment, and the copy fails. -/
def CopyFails (cfg : RxConfig) (s : RxLcore) (f : Received) : Prop :=
  Reaches cfg f.outcome (NullCopy cfg f.outcome) s.alloc (s.packet f)

/-- **Every run.** Throughout the bursts mbufs are owned and no null pointer is used exactly when
`m_devget` fails for no small segment with payload. -/
theorem rxBurst_owned_iff (cfg : RxConfig) (portid : ℕ) (frames : List Received) :
    Runs.StepsMeet (fun s f => (rxTurn cfg portid s f).value) (Owned cfg portid) .start frames ↔
      Runs.StepsMeet (fun s f => (rxTurn cfg portid s f).value) (fun s f => ¬CopyFails cfg s f)
        .start frames := by
  have hturn (s : RxLcore) (f : Received) (hs : s.Conserved) :
      Owned cfg portid s f ↔ ¬CopyFails cfg s f := by
    rw [Owned, and_iff_left (conserved_rxTurn cfg portid f hs)]
    exact notNull_rxPacket s.alloc
  have hkeeps (s : RxLcore) (f : Received) (hs : s.Conserved) (_ : ¬CopyFails cfg s f) :
      (rxTurn cfg portid s f).value.Conserved := conserved_rxTurn cfg portid f hs
  exact Runs.stepsMeet_congr hturn hkeeps conserved_start frames

/-- A segment with one byte of payload, for which there is no copy. -/
def noCopy : Received where
  data := List.replicate 12 0 ++ [8, 0, 0x45, 0, 0, 41, 0, 0, 0x40, 0, 64, 6, 0, 0] ++
    [10, 0, 0, 1, 10, 0, 0, 2] ++ List.replicate 12 0 ++ [0x50, 0, 0, 0, 0x9b, 0xe1] ++
    List.replicate 3 0
  behind := fun _ => 0
  outcome := { noFailure with devget := some 0 }

/-- **No memory for the copy.** The null pointer is used. -/
theorem noCopy_not_owned :
    ¬∀ frames, Runs.StepsMeet (fun s f => (rxTurn someConfig 0 s f).value) (Owned someConfig 0)
      .start frames := by
  have hsum : Rxbuf.tcpSum
      (Rxbuf.segmentSum ((RxLcore.start.packet noCopy).load 34 21) 0 21)
      ((RxLcore.start.packet noCopy).load 14 20) 41 = 0xffff := by decide
  have haccepted : Accepted (RxLcore.start.packet noCopy) 0 := by
    have hfold : foldSum 0xffff = 0xffff := by rw [foldSum, if_pos (by decide)]
    change (if 2 ^ 16 - 1 - foldSum (Rxbuf.tcpSum
      (Rxbuf.segmentSum ((RxLcore.start.packet noCopy).load 34 21) 0 21)
      ((RxLcore.start.packet noCopy).load 14 20) 41) = 0 then 1 else 0) = 1
    rw [hsum, hfold, if_pos (by decide)]
  have hnull : NullCopy someConfig noCopy.outcome (RxLcore.start.packet noCopy) 0 :=
    ⟨by decide, haccepted, by decide, by decide, by decide⟩
  have hreaches : Reaches someConfig noCopy.outcome (NullCopy someConfig noCopy.outcome)
      RxLcore.start.alloc (RxLcore.start.packet noCopy) := by
    have hplain : (RxLcore.start.packet noCopy).byteAt 23 ≠ 0x2f := by decide
    have hwhole : isFragment ((RxLcore.start.packet noCopy).field16 20) = false := by decide
    refine ⟨by decide, ?_⟩
    rw [if_neg (by rw [hwhole]; decide), ReachesInner, if_neg hplain]
    exact ⟨by decide, hnull⟩
  intro h
  have howned : Owned someConfig 0 .start noCopy := (h [noCopy]).1
  exact (notNull_rxPacket RxLcore.start.alloc).mp howned.1 hreaches

end SecureWan.WanOptimizer.AppRx
