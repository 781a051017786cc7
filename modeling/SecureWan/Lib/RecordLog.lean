import Mathlib.Data.List.Basic
import Mathlib.Data.List.Flatten
import Mathlib.Data.List.Induction
import Mathlib.Data.Nat.Find
import Mathlib.Tactic.Common

/-!
# Logs of self-delimiting records

A log is the concatenation of its records' encodings, where the encoding of a record may
depend on its position. A scan goes over a log record by record: it looks at what is left,
and stops or takes a step and goes over as many elements as the step says. Going over more
than there is leaves nothing.
-/

namespace SecureWan.RecordLog

variable {σ β ρ : Type*}

/-! ### Encoding -/

section Encode

variable (enc : ℕ → ρ → List β)

/-- The log of a list of records. -/
def encode (rs : List ρ) : List β := (rs.mapIdx enc).flatten

@[simp] theorem encode_nil : encode enc [] = [] := rfl

/-- Appending a record appends its encoding. -/
theorem encode_concat (rs : List ρ) (r : ρ) :
    encode enc (rs ++ [r]) = encode enc rs ++ enc rs.length r := by
  simp [encode, List.mapIdx_append]

/-- The log of some first records is a prefix of the whole log. -/
theorem encode_append (rs ss : List ρ) :
    ∃ more, encode enc (rs ++ ss) = encode enc rs ++ more := by
  induction ss using List.reverseRecOn with
  | nil => exact ⟨[], by simp⟩
  | append_singleton ss r ih =>
    obtain ⟨more, hmore⟩ := ih
    refine ⟨more ++ enc (rs ++ ss).length r, ?_⟩
    rw [← List.append_assoc, encode_concat, hmore, List.append_assoc]

/-- A record in the middle of a log. -/
theorem encode_middle (rs : List ρ) (r : ρ) (ss : List ρ) :
    ∃ more, encode enc (rs ++ r :: ss) = encode enc rs ++ enc rs.length r ++ more := by
  obtain ⟨more, hmore⟩ := encode_append enc (rs ++ [r]) ss
  rw [List.append_assoc, List.singleton_append, encode_concat] at hmore
  exact ⟨more, hmore⟩

/-- The records that are whole within the first elements of a log. -/
def whole (k : ℕ) (rs : List ρ) : List ρ :=
  rs.take (Nat.findGreatest (fun j => (encode enc (rs.take j)).length ≤ k) rs.length)

/-- One more record does not fit. -/
theorem exists_whole (k : ℕ) (rs : List ρ) :
    ∃ j ≤ rs.length, whole enc k rs = rs.take j ∧ (encode enc (rs.take j)).length ≤ k ∧
      (j < rs.length → k < (encode enc (rs.take (j + 1))).length) := by
  let fits := fun j => (encode enc (rs.take j)).length ≤ k
  have hfits : fits (Nat.findGreatest fits rs.length) :=
    Nat.findGreatest_spec (Nat.zero_le _) (by simp [fits])
  refine ⟨Nat.findGreatest fits rs.length, Nat.findGreatest_le _, rfl, hfits, fun hlt => ?_⟩
  exact not_le.mp (Nat.findGreatest_is_greatest (P := fits) (Nat.lt_succ_self _) hlt)

variable {enc}

/-- **Cuts.** The first elements of a log are the whole records within them, with a proper
and non-empty part of the next record behind unless the cut falls between two records. -/
theorem take_encode (k : ℕ) (rs : List ρ) :
    (encode enc rs).take k = encode enc (whole enc k rs) ∨
      ∃ r rest n, rs = whole enc k rs ++ r :: rest ∧ 0 < n ∧
        n < (enc (whole enc k rs).length r).length ∧
        (encode enc rs).take k = encode enc (whole enc k rs) ++
          (enc (whole enc k rs).length r).take n := by
  obtain ⟨j, hle, hwhole, hfits, hnext⟩ := exists_whole enc k rs
  rw [hwhole]
  by_cases hlt : j < rs.length
  · obtain ⟨n, hn⟩ := Nat.exists_eq_add_of_le hfits
    have hmore := hnext hlt
    obtain ⟨more, hsome⟩ := encode_middle enc (rs.take j) rs[j] (rs.drop (j + 1))
    have hsplit : rs = rs.take j ++ rs[j] :: rs.drop (j + 1) := by
      rw [← List.drop_eq_getElem_cons hlt, List.take_append_drop]
    rw [← hsplit] at hsome
    rw [List.take_succ_eq_append_getElem hlt, encode_concat, List.length_append] at hmore
    have hcut : (encode enc rs).take k =
        encode enc (rs.take j) ++ (enc (rs.take j).length rs[j]).take n := by
      rw [hsome, hn, List.append_assoc, List.take_length_add_append,
        List.take_append_of_le_length (by omega)]
    rcases Nat.eq_zero_or_pos n with rfl | hpos
    · exact .inl (by rw [hcut, List.take_zero, List.append_nil])
    · exact .inr ⟨rs[j], _, n, hsplit, hpos, by omega, hcut⟩
  · have hall : rs.take j = rs := List.take_of_length_le (by omega)
    rw [hall] at hfits
    rw [hall, List.take_of_length_le hfits]
    exact .inl rfl

end Encode

/-! ### Scanning -/

section Scan

variable (next : σ → List β → Option (σ × ℕ))

/-- The scan of what is left of a log, with a bound on the number of rounds. -/
def scan : ℕ → σ → List β → σ
  | 0, s, _ => s
  | fuel + 1, s, rest =>
    match next s rest with
    | none => s
    | some (s', n) => scan fuel s' (rest.drop n)

variable {next}

/-- A scan that cannot take a step is over. -/
theorem scan_of_none {s : σ} {rest : List β} (h : next s rest = none) (fuel : ℕ) :
    scan next fuel s rest = s := by
  cases fuel with
  | zero => rfl
  | succ fuel => simp only [scan, h]

/-- A step of a scan. -/
theorem scan_of_some {s s' : σ} {rest : List β} {n : ℕ} (h : next s rest = some (s', n))
    (fuel : ℕ) : scan next (fuel + 1) s rest = scan next fuel s' (rest.drop n) := by
  simp only [scan, h]

/-- A bound above the number of elements is no bound, when each step goes over some. -/
theorem scan_fuel (hnext : ∀ s rest s' n, next s rest = some (s', n) → rest ≠ [] ∧ 0 < n)
    {f g : ℕ} (s : σ) {rest : List β} (hf : rest.length < f) (hg : rest.length < g) :
    scan next f s rest = scan next g s rest := by
  induction f generalizing s rest g with
  | zero => omega
  | succ f ih =>
    cases g with
    | zero => omega
    | succ g =>
      cases hs : next s rest with
      | none => rw [scan_of_none hs, scan_of_none hs]
      | some p =>
        obtain ⟨s', n⟩ := p
        obtain ⟨hne, hn⟩ := hnext _ _ _ _ hs
        have hlen := List.length_pos_iff.mpr hne
        rw [scan_of_some hs, scan_of_some hs]
        apply ih
        · rw [List.length_drop]
          omega
        · rw [List.length_drop]
          omega

/-- **Whole records.** If a state that stands for some first records takes each next record
of `rs` in one step, then a scan goes over the log of `rs` to a state that stands for it. -/
theorem scan_encode {enc : ℕ → ρ → List β} {stands : List ρ → σ → Prop} {rs : List ρ}
    (hstep : ∀ fst r s, fst ++ [r] <+: rs → stands fst s →
      ∃ s', stands (fst ++ [r]) s' ∧
        ∀ tail, next s (enc fst.length r ++ tail) = some (s', (enc fst.length r).length))
    {s : σ} (hs : stands [] s) :
    ∃ s', stands rs s' ∧ ∀ fuel tail,
      scan next (rs.length + fuel) s (encode enc rs ++ tail) = scan next fuel s' tail := by
  induction rs using List.reverseRecOn with
  | nil => exact ⟨s, hs, fun fuel tail => by simp⟩
  | append_singleton rs r ih =>
    obtain ⟨s₁, h₁, hscan⟩ := ih fun fst q t hpre =>
      hstep fst q t (hpre.trans (List.prefix_append rs [r]))
    obtain ⟨s₂, h₂, hnext⟩ := hstep rs r s₁ List.prefix_rfl h₁
    refine ⟨s₂, h₂, fun fuel tail => ?_⟩
    have hfuel : (rs ++ [r]).length + fuel = rs.length + (fuel + 1) := by
      rw [List.length_append, List.length_singleton]
      omega
    rw [hfuel, encode_concat, List.append_assoc, hscan, scan_of_some (hnext tail),
      List.drop_left]

end Scan

end SecureWan.RecordLog
