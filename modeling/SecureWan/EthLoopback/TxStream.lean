import SecureWan.EthLoopback.Delivery

/-!
# The stream on TX

When no frame has an error and the FIFO is never full, the beats taken on TX are the beats of
RX, the interface is not idle within a frame, and no frame is begun before it has been received.
-/

namespace SecureWan.EthLoopback

open Packets

namespace Loopback

variable {n : ℕ} {s : Loopback n} {i : Inputs} {mem : BitVec n → Beat} {is : List Inputs}

/-- The beat on RX does not meet a full FIFO. -/
def FitsIn (s : Loopback n) (i : Inputs) : Prop := i.rx.anyValid = true → s.full = false

instance (s : Loopback n) (i : Inputs) : Decidable (FitsIn s i) :=
  inferInstanceAs (Decidable (_ → _))

/-- The valid beats of RX. -/
def rxBeats (is : List Inputs) : List Beat := (is.map Inputs.rx).filter Beat.anyValid

/-- The frames begun on TX, with the one on the interface. -/
def txBegun (s : Loopback n) (is : List Inputs) : ℕ :=
  (Runs.run (Packets.push Beat.anyEop) start
    (takenIn s is ++ (Runs.run step s is).presented)).begun

/-- The TX side streams in a run: what has been taken is the beginning of what has been received;
a beat stays on the interface until it is taken; while a frame has been taken in part there is a
beat on the interface; and with the next clock edge, whatever comes, no more frames have begun
than have been received before. -/
structure Streams (s₀ : Loopback n) (is : List Inputs) : Prop where
  inOrder : takenIn s₀ is <+: rxBeats is
  held : ∀ i : Inputs, i.txReady = false → (Runs.run step s₀ is).tx.tx.anyValid = true →
    ((Runs.run step s₀ is).step i).tx.tx = (Runs.run step s₀ is).tx.tx
  contiguous : (Runs.run (Packets.push Beat.anyEop) start (takenIn s₀ is)).current ≠ [] →
    (Runs.run step s₀ is).tx.tx.anyValid = true
  complete : ∀ i, txBegun s₀ (is ++ [i]) ≤ (rxFrames is).length

/-! ### Runs without errors -/

/-- Where no frame has an error and each beat finds room, no step goes wrong. -/
theorem safe_of_fitsIn (herr : i.rx.anyErr = false) (hfits : FitsIn s i) : Safe s i := by
  intro hvalid _
  refine ⟨fun herr' => ?_, fun _ _ => hfits hvalid⟩
  rw [herr] at herr'
  cases herr'

theorem stepsMeet_safe (herr : ∀ i ∈ is, i.rx.anyErr = false)
    (hfits : Runs.StepsMeet step FitsIn s is) : Runs.StepsMeet step Safe s is := by
  rw [Runs.stepsMeet_iff] at hfits ⊢
  intro pre i suf hsplit
  exact safe_of_fitsIn (herr i (by simp [hsplit])) (hfits pre i suf hsplit)

/-- No beat has a mark, and none has an error. -/
theorem arrivedIn_clean (herr : ∀ i ∈ is, i.rx.anyErr = false)
    (hfits : Runs.StepsMeet step FitsIn s is) :
    ∀ y ∈ arrivedIn s is, y.2 = false ∧ y.1.anyErr = false := by
  unfold arrivedIn
  induction is generalizing s with
  | nil => simp [Runs.trace]
  | cons i is ih =>
    obtain ⟨hi, hrest⟩ := List.forall_mem_cons.mp herr
    intro y hy
    rcases List.mem_append.mp hy with hhead | htail
    · unfold arrival at hhead
      split at hhead
      next hvalid =>
        rw [List.mem_singleton.mp hhead]
        exact ⟨hfits.1 hvalid, hi⟩
      next => cases hhead
    · exact ih hrest hfits.2 y htail

/-- So every frame of RX is accepted. -/
theorem accepted_eq_rxFrames (herr : ∀ i ∈ is, i.rx.anyErr = false)
    (hfits : Runs.StepsMeet step FitsIn s is) : accepted s is = rxFrames is := by
  have hclean := arrivedIn_clean herr hfits
  have hgood : ∀ f ∈ (markedFrames s is).closed, good f = true := by
    intro f hf
    rw [good, List.all_eq_true]
    intro y hy
    obtain ⟨hmark, hnoerr⟩ := hclean y (mem_of_mem_closed hf hy)
    rw [hmark, hnoerr]
    rfl
  rw [accepted, goodFrames, List.filter_eq_self.mpr hgood, rxFrames, ← map_markedFrames s]
  rfl

/-- The frames of RX hold the valid beats of RX. -/
theorem run_receive (g : Packets Beat) (bs : List Beat) :
    Runs.run receive g bs = Runs.run (Packets.push Beat.anyEop) g (bs.filter Beat.anyValid) := by
  induction bs generalizing g with
  | nil => rfl
  | cons b bs ih =>
    rw [Runs.run_cons, ih, receive]
    split
    next hvalid => rw [List.filter_cons_of_pos hvalid, Runs.run_cons]
    next hinvalid => rw [List.filter_cons_of_neg hinvalid]

theorem isPrefix_flatten_rxFrames (is : List Inputs) : (rxFrames is).flatten <+: rxBeats is := by
  have hall : (rxFrames is).flatten ++ (Runs.run receive start (is.map Inputs.rx)).current =
      rxBeats is := by
    rw [rxFrames, run_receive]
    exact flatten_run start _
  rw [← hall]
  exact List.prefix_append _ _

/-- **The TX side streams** in every run on frames of whole beats that have no errors and meet
no full FIFO. -/
theorem streams_of_fitsIn (mem : BitVec n → Beat) {is : List Inputs}
    (hwhole : WholeBeats (is.map Inputs.rx)) (herr : ∀ i ∈ is, i.rx.anyErr = false)
    (hfits : Runs.StepsMeet step FitsIn (reset mem) is) : Streams (reset mem) is := by
  obtain ⟨cur, ready, part, h, hcontiguous⟩ :=
    delivers_run mem hwhole (stepsMeet_safe herr hfits)
  have hframes : goodFrames (markedFrames (reset mem) is).closed = rxFrames is :=
    accepted_eq_rxFrames herr hfits
  have hpackets : ∀ p ∈ rxFrames is, IsPacket Beat.anyEop p := by
    intro p hp
    rw [← accepted_eq_rxFrames herr hfits] at hp
    exact (accepted_spec (reset mem) is p hp).1
  constructor
  · have hflow := h.flow
    rw [hframes, List.append_assoc] at hflow
    exact (hflow ▸ List.prefix_append _ _).trans (isPrefix_flatten_rxFrames is)
  · intro i hready hvalid
    have hfree : ¬ (Runs.run step (reset mem) is).outFree i = true := by
      unfold outFree
      rw [h.sends.txVld, hvalid, hready]
      decide
    exact congrArg TxSide.tx (taken_of_not_free hfree).2
  · intro hopen
    obtain ⟨fs, hfs, hflatten⟩ := hcontiguous.begun
    by_contra hidle
    have hnone : (Runs.run step (reset mem) is).presented = [] := if_neg hidle
    -- nothing is left of the frames that have been begun
    have hcur : cur = [] := by
      by_contra hcur
      exact hcontiguous.busy hcur hnone
    rw [hnone, hcur, List.append_nil, List.append_nil] at hflatten
    rw [← hflatten] at hopen
    exact hopen (current_run_flatten fun p hp => hpackets p (by simp [← hframes, hfs, hp]))
  · intro i
    obtain ⟨moved, cur', ready', hmoves, hcontinues⟩ := h.sends.txSide (i := i) h.stores
    obtain ⟨fs, hfs, hflatten⟩ := hcontiguous.begins hmoves hcontinues
    rw [hframes] at hfs
    have hbegun : txBegun (reset mem) (is ++ [i]) ≤ fs.length := by
      unfold txBegun
      apply begun_le_of_prefix fun p hp => hpackets p (by simp [hfs, hp])
      rw [takenIn, Runs.trace_concat, Runs.run_append, hflatten]
      exact List.prefix_append _ _
    rw [hfs, List.length_append]
    exact hbegun.trans (Nat.le_add_right _ _)

/-- The frames of two beats and of a single one, with gaps, and a TX side that is held up. -/
def heldUp : List Inputs :=
  [received 1 true false false true, quiet false, received 2 false true false false,
    received 3 true true false false, quiet true, quiet false, quiet true, quiet true]

theorem streams_of_fitsIn_heldUp :
    Streams (reset fun _ : BitVec 9 => (quiet true).rx) heldUp :=
  streams_of_fitsIn _ (by decide) (by decide) (by decide)

end Loopback

end SecureWan.EthLoopback
