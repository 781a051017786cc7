import Mathlib.Algebra.Group.Nat.Defs
import Mathlib.Tactic.ByContra

/-!
# A search over a range with a counter of fixed width

`for (s = first; s <= last; s += increment) if (s == x) return 0; return -1;` with `w`-bit
variables. The counter can wrap around, and then the loop goes on below `first`, or for ever.
-/

namespace SecureWan.RangeLoop

variable {w : ℕ}

/-- The loop from a value of the counter on, for some rounds; no result while it goes on. -/
def search (last increment x : BitVec w) : ℕ → BitVec w → Option Bool
  | 0, _ => none
  | rounds + 1, s =>
    if s ≤ last then
      if x = s then some true else search last increment x rounds (s + increment)
    else some false

/-- The loop ends with this result. -/
def Finds (last increment x s : BitVec w) (found : Bool) : Prop :=
  ∃ rounds, search last increment x rounds s = some found

/-- The values that the loop is over. -/
def InRange (first last increment x : BitVec w) : Prop :=
  first ≤ x ∧ x ≤ last ∧ increment.toNat ∣ x.toNat - first.toNat

instance (first last increment x : BitVec w) : Decidable (InRange first last increment x) :=
  inferInstanceAs (Decidable (_ ∧ _ ∧ _))

/-- The value behind the last one of the range has `w` bits. -/
def Ends (first last increment : BitVec w) : Prop :=
  first ≤ last →
    last.toNat - (last.toNat - first.toNat) % increment.toNat + increment.toNat < 2 ^ w

variable {first last increment x s : BitVec w} {rounds : ℕ} {found : Bool}

theorem search_of_gt (h : last < s) (rounds : ℕ) :
    search last increment x (rounds + 1) s = some false :=
  if_neg (BitVec.not_le.mpr h)

theorem search_of_eq (h : x ≤ last) (rounds : ℕ) :
    search last increment x (rounds + 1) x = some true := by
  rw [search, if_pos h, if_pos rfl]

theorem search_of_ne (h : s ≤ last) (hne : x ≠ s) (rounds : ℕ) :
    search last increment x (rounds + 1) s = search last increment x rounds (s + increment) := by
  rw [search, if_pos h, if_neg hne]

/-- More rounds do not change the result. -/
theorem search_mono (h : search last increment x rounds s = some found) {more : ℕ}
    (hle : rounds ≤ more) : search last increment x more s = some found := by
  induction rounds generalizing s more with
  | zero => cases h
  | succ rounds ih =>
    obtain ⟨more, rfl⟩ : ∃ k, more = k + 1 := ⟨more - 1, by omega⟩
    by_cases hs : s ≤ last
    · by_cases hx : x = s
      · subst hx
        rwa [search_of_eq hs] at h ⊢
      · rw [search_of_ne hs hx] at h ⊢
        exact ih h (by omega)
    · rw [BitVec.not_le] at hs
      rwa [search_of_gt hs] at h ⊢

/-- The loop has one result. -/
theorem Finds.eq {found' : Bool} (h : Finds last increment x s found)
    (h' : Finds last increment x s found') : found = found' := by
  obtain ⟨m, hm⟩ := h
  obtain ⟨n, hn⟩ := h'
  have hmax := search_mono hm (Nat.le_max_left m n)
  rw [search_mono hn (Nat.le_max_right m n)] at hmax
  exact (Option.some.inj hmax).symm

/-! ### Without a wrap -/

/-- One value less to go. -/
theorem inRange_next (hne : x ≠ s) (hwrap : s.toNat + increment.toNat < 2 ^ w) :
    InRange (s + increment) last increment x ↔ InRange s last increment x := by
  have hnat : x.toNat ≠ s.toNat := fun h => hne (BitVec.eq_of_toNat_eq h)
  simp only [InRange, BitVec.le_def, BitVec.toNat_add_of_lt hwrap]
  constructor
  · rintro ⟨hfirst, hlast, hdvd⟩
    have hsum : x.toNat - s.toNat =
        x.toNat - (s.toNat + increment.toNat) + increment.toNat := by omega
    refine ⟨by omega, hlast, ?_⟩
    rw [hsum]
    exact Nat.dvd_add hdvd (Nat.dvd_refl _)
  · rintro ⟨hfirst, hlast, hdvd⟩
    have hle := Nat.le_of_dvd (by omega) hdvd
    refine ⟨by omega, hlast, ?_⟩
    rw [← Nat.sub_sub]
    exact Nat.dvd_sub hdvd (Nat.dvd_refl _)

theorem Ends.next (h : Ends s last increment) (hwrap : s.toNat + increment.toNat < 2 ^ w) :
    Ends (s + increment) last increment := by
  intro hle
  rw [BitVec.le_def, BitVec.toNat_add_of_lt hwrap] at hle
  have hsub : last.toNat - (s.toNat + increment.toNat) + increment.toNat =
      last.toNat - s.toNat := by omega
  rw [BitVec.toNat_add_of_lt hwrap, ← Nat.add_mod_right, hsub]
  exact h (BitVec.le_def.mpr (by omega))

/-- **A counter that does not wrap around.** The loop is over the range. -/
theorem search_of_ends (hpos : 0 < increment.toNat) (h : Ends s last increment)
    (hrounds : 2 ^ w - s.toNat < rounds) :
    search last increment x rounds s = some (decide (InRange s last increment x)) := by
  induction rounds generalizing s with
  | zero => exact absurd hrounds (Nat.not_lt_zero _)
  | succ rounds ih =>
    by_cases hs : s ≤ last
    · by_cases hx : x = s
      · subst hx
        rw [search_of_eq hs, decide_eq_true]
        exact ⟨BitVec.le_refl x, hs, by rw [Nat.sub_self]; exact Nat.dvd_zero _⟩
      · have hend := h hs
        have hmod := Nat.mod_le (last.toNat - s.toNat) increment.toNat
        have hwrap : s.toNat + increment.toNat < 2 ^ w := by
          rw [BitVec.le_def] at hs
          omega
        rw [search_of_ne hs hx, ih (h.next hwrap) (by rw [BitVec.toNat_add_of_lt hwrap]; omega),
          decide_eq_decide.mpr (inRange_next hx hwrap)]
    · have hempty : ¬ InRange s last increment x := fun hx => hs (BitVec.le_trans hx.1 hx.2.1)
      rw [search_of_gt (BitVec.not_le.mp hs), decide_eq_false hempty]

/-- A value of the range is found before the counter can wrap around. -/
theorem search_of_inRange (hpos : 0 < increment.toNat) (h : InRange s last increment x)
    (hrounds : x.toNat - s.toNat < rounds) : search last increment x rounds s = some true := by
  induction rounds generalizing s with
  | zero => exact absurd hrounds (Nat.not_lt_zero _)
  | succ rounds ih =>
    by_cases hx : x = s
    · subst hx
      exact search_of_eq h.2.1 rounds
    · obtain ⟨hle, hlast, hdvd⟩ := id h
      rw [BitVec.le_def] at hle
      have hnat : x.toNat ≠ s.toNat := fun h => hx (BitVec.eq_of_toNat_eq h)
      have hstep := Nat.le_of_dvd (by omega) hdvd
      have hfit := x.isLt
      have hwrap : s.toNat + increment.toNat < 2 ^ w := by omega
      rw [search_of_ne (BitVec.le_trans h.1 hlast) hx]
      exact ih ((inRange_next hx hwrap).mpr h) (by rw [BitVec.toNat_add_of_lt hwrap]; omega)

/-! ### With a wrap -/

/-- What is found from the next value on is found. -/
theorem Finds.step (hs : s ≤ last) (h : Finds last increment x (s + increment) true) :
    Finds last increment x s true := by
  obtain ⟨rounds, hsearch⟩ := h
  refine ⟨rounds + 1, ?_⟩
  by_cases hx : x = s
  · subst hx
    exact search_of_eq hs rounds
  · rw [search_of_ne hs hx, hsearch]

/-- What is found from a value of the range on is found. -/
theorem Finds.through {t : BitVec w} (ht : InRange s last increment t)
    (h : Finds last increment x t true) : Finds last increment x s true := by
  obtain ⟨hst, hlast, k, hk⟩ := ht
  induction k generalizing s with
  | zero =>
    rw [BitVec.le_def] at hst
    have hsame : t = s := BitVec.eq_of_toNat_eq (by omega)
    exact hsame ▸ h
  | succ k ih =>
    rw [BitVec.le_def] at hst
    have hfit := t.isLt
    rw [Nat.mul_succ] at hk
    have hwrap : s.toNat + increment.toNat < 2 ^ w := by omega
    refine Finds.step (BitVec.le_trans (BitVec.le_def.mpr hst) hlast) (ih ?_ ?_)
    · rw [BitVec.le_def, BitVec.toNat_add_of_lt hwrap]
      omega
    · rw [BitVec.toNat_add_of_lt hwrap]
      omega

/-- The last value of the range, and what is behind it. -/
theorem last_inRange (hpos : 0 < increment.toNat) (hle : first ≤ last) :
    ∃ top : BitVec w, InRange first last increment top ∧
      top.toNat = last.toNat - (last.toNat - first.toNat) % increment.toNat ∧
      ∀ t, InRange first last increment t → t ≠ top → t.toNat + increment.toNat ≤ top.toNat := by
  rw [BitVec.le_def] at hle
  have hlt := last.isLt
  have hdiv := Nat.div_add_mod (last.toNat - first.toNat) increment.toNat
  have hmod := Nat.mod_lt (last.toNat - first.toNat) hpos
  have htop : (BitVec.ofNat w
      (last.toNat - (last.toNat - first.toNat) % increment.toNat)).toNat =
        last.toNat - (last.toNat - first.toNat) % increment.toNat :=
    BitVec.toNat_ofNat _ _ ▸ Nat.mod_eq_of_lt (by omega)
  refine ⟨_, ⟨?_, ?_, (last.toNat - first.toNat) / increment.toNat, ?_⟩, htop, fun t ht hne => ?_⟩
  · rw [BitVec.le_def, htop]
    omega
  · rw [BitVec.le_def, htop]
    omega
  · rw [htop]
    omega
  · obtain ⟨hfirst, hlast, k, hk⟩ := ht
    rw [BitVec.le_def] at hfirst hlast
    have hnat : t.toNat ≠ _ := fun h => hne (BitVec.eq_of_toNat_eq h)
    rw [htop] at hnat ⊢
    have hkle : k ≤ (last.toNat - first.toNat) / increment.toNat := by
      rw [Nat.le_div_iff_mul_le hpos, Nat.mul_comm, ← hk]
      omega
    obtain rfl | hklt := Nat.eq_or_lt_of_le hkle
    · omega
    · have hmul := Nat.mul_le_mul_left increment.toNat (Nat.succ_le_of_lt hklt)
      rw [Nat.mul_succ] at hmul
      omega

/-- A counter that comes back to its first value goes round for ever. -/
theorem search_eq_none {top : BitVec w}
    (htop : ∀ t, InRange first last increment t → t ≠ top →
      t.toNat + increment.toNat ≤ top.toNat)
    (hrange : InRange first last increment top) (hround : top + increment = first)
    (hs : InRange first last increment s) (hx : ¬ InRange first last increment x) (rounds : ℕ) :
    search last increment x rounds s = none := by
  induction rounds generalizing s with
  | zero => rfl
  | succ rounds ih =>
    have hne : x ≠ s := fun h => hx (h ▸ hs)
    rw [search_of_ne hs.2.1 hne]
    by_cases hlast : s = top
    · subst hlast
      rw [hround]
      exact ih ⟨BitVec.le_refl _, BitVec.le_trans hs.1 hs.2.1, by
        rw [Nat.sub_self]; exact Nat.dvd_zero _⟩
    · have hle := htop s hs hlast
      have hwrap : s.toNat + increment.toNat < 2 ^ w := Nat.lt_of_le_of_lt hle top.isLt
      obtain ⟨hfirst, -, hdvd⟩ := hs
      have hend := hrange.2.1
      rw [BitVec.le_def] at hfirst hend
      refine ih ⟨?_, ?_, ?_⟩
      · rw [BitVec.le_def, BitVec.toNat_add_of_lt hwrap]
        omega
      · rw [BitVec.le_def, BitVec.toNat_add_of_lt hwrap]
        omega
      · rw [BitVec.toNat_add_of_lt hwrap, Nat.sub_add_comm hfirst]
        exact Nat.dvd_add hdvd (Nat.dvd_refl _)

/-- **When the loop decides its range.** For every value it ends with the right answer, exactly
when the value behind the last one of the range has `w` bits, or all values are in it. -/
theorem finds_inRange_iff (hpos : 0 < increment.toNat) :
    (∀ x, Finds last increment x first (decide (InRange first last increment x))) ↔
      Ends first last increment ∨ ∀ x, InRange first last increment x := by
  constructor
  · intro hfinds
    rw [or_iff_not_imp_left]
    intro hends
    obtain ⟨hle, hover⟩ : first ≤ last ∧ 2 ^ w ≤
        last.toNat - (last.toNat - first.toNat) % increment.toNat + increment.toNat := by
      rw [Ends, not_forall] at hends
      obtain ⟨hle, hnot⟩ := hends
      exact ⟨hle, Nat.le_of_not_lt hnot⟩
    obtain ⟨top, htop, hnat, hbelow⟩ := last_inRange hpos hle
    rw [← hnat] at hover
    have hinc := increment.isLt
    have hfit := top.isLt
    -- the value behind the wrap is found, and is in the range only if it is the first one
    have hnext : (top + increment).toNat = top.toNat + increment.toNat - 2 ^ w := by
      rw [BitVec.toNat_add, Nat.mod_eq_sub_mod hover, Nat.mod_eq_of_lt (by omega)]
    have hend := htop.2.1
    rw [BitVec.le_def] at hend
    have hwrapped : Finds last increment (top + increment) first true :=
      Finds.through htop (Finds.step htop.2.1
        ⟨1, search_of_eq (BitVec.le_def.mpr (by omega)) 0⟩)
    obtain ⟨hfirst, -, hdvd⟩ := of_decide_eq_true ((hfinds _).eq hwrapped)
    rw [BitVec.le_def] at hfirst
    have hround : top + increment = first := by
      have hzero := Nat.eq_zero_of_dvd_of_lt hdvd (by omega)
      exact BitVec.eq_of_toNat_eq (by omega)
    intro x
    by_contra hx
    obtain ⟨rounds, hsearch⟩ := hfinds x
    rw [search_eq_none hbelow htop hround
      ⟨BitVec.le_refl _, hle, by rw [Nat.sub_self]; exact Nat.dvd_zero _⟩ hx] at hsearch
    cases hsearch
  · rintro (hends | hall) x
    · exact ⟨2 ^ w - first.toNat + 1, search_of_ends hpos hends (Nat.lt_succ_self _)⟩
    · rw [decide_eq_true (hall x)]
      exact ⟨x.toNat - first.toNat + 1, search_of_inRange hpos (hall x) (Nat.lt_succ_self _)⟩

/-- All values are in a range only if it is over all of them one by one. -/
theorem forall_inRange_iff (hpos : 0 < increment.toNat) :
    (∀ x, InRange first last increment x) ↔
      first.toNat = 0 ∧ increment.toNat = 1 ∧ last.toNat = 2 ^ w - 1 := by
  have hinc := increment.isLt
  constructor
  · intro h
    obtain ⟨hzero, -, -⟩ := h (BitVec.ofNat w 0)
    obtain ⟨-, -, hone⟩ := h (BitVec.ofNat w 1)
    obtain ⟨-, hmax, -⟩ := h (BitVec.ofNat w (2 ^ w - 1))
    have hlast := last.isLt
    rw [BitVec.le_def, BitVec.toNat_ofNat, Nat.zero_mod, Nat.le_zero] at hzero
    rw [BitVec.toNat_ofNat, Nat.mod_eq_of_lt (by omega), hzero] at hone
    rw [BitVec.le_def, BitVec.toNat_ofNat, Nat.mod_eq_of_lt (by omega)] at hmax
    exact ⟨hzero, Nat.dvd_one.mp hone, by omega⟩
  · rintro ⟨hfirst, hone, hlast⟩ x
    have hx := x.isLt
    refine ⟨BitVec.le_def.mpr (by omega), BitVec.le_def.mpr (by omega), ?_⟩
    rw [hone]
    exact Nat.one_dvd _

end SecureWan.RangeLoop
