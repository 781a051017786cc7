import SecureWan.AesCore.Cipher

/-!
# The handshake with the expander

The core raises `ke_start` for one clock cycle and waits for `ke_done` from that cycle on, but
the expander drops its `done` of the run before only at the end of that cycle. Where there is no
such `done`, each start that is accepted is followed by the encryption of its plaintext under
its key.
-/

namespace SecureWan.Aes

variable {κ : Type} {expand : KeyExpand κ} {schedule : Block → ℕ → Block}
  {round : Block → Block → Bool → Block}

/-! ### The expander -/

section Expander

variable {ke : κ} {key : Block}

/-- A clock edge without a start. -/
def KeyExpand.wait (expand : KeyExpand κ) (ke : κ) (keyIn : Block) : κ :=
  expand.step ke false keyIn

/-- The expander presents the round keys of a key. -/
def Presents (expand : KeyExpand κ) (schedule : Block → ℕ → Block) (key : Block) (ke : κ) : Prop :=
  expand.done ke = true ∧ ∀ j ≤ 10, rk (expand.roundKeysFlat ke) j = schedule key j

/-- It presents them after some more clock edges without a start, and from then on. -/
def Working (expand : KeyExpand κ) (schedule : Block → ℕ → Block) (key : Block) (ke : κ) : Prop :=
  ∃ latency, ∀ ks : List Block,
    (ks.length < latency → expand.done (Runs.run expand.wait ke ks) = false) ∧
      (latency ≤ ks.length → Presents expand schedule key (Runs.run expand.wait ke ks))

/-- It presents them now, and keeps on. -/
def Keeps (expand : KeyExpand κ) (schedule : Block → ℕ → Block) (key : Block) (ke : κ) : Prop :=
  ∀ ks : List Block, Presents expand schedule key (Runs.run expand.wait ke ks)

/-- What is assumed of `aes_key_expand`: at a clock edge with a start it samples the key. -/
def Samples (expand : KeyExpand κ) (schedule : Block → ℕ → Block) : Prop :=
  ∀ ke key, Working expand schedule key (expand.step ke true key)

theorem Working.wait (h : Working expand schedule key ke) (k : Block) :
    Working expand schedule key (expand.wait ke k) := by
  obtain ⟨latency, h⟩ := h
  refine ⟨latency - 1, fun ks => ?_⟩
  obtain ⟨hbusy, hready⟩ := h (k :: ks)
  rw [List.length_cons, Runs.run_cons] at hbusy hready
  exact ⟨fun hlt => hbusy (by omega), fun hle => hready (by omega)⟩

theorem Working.keeps (h : Working expand schedule key ke) (hdone : expand.done ke = true) :
    Keeps expand schedule key ke := by
  obtain ⟨latency, h⟩ := h
  have hzero : latency = 0 := by
    by_contra hne
    have hbusy : expand.done ke = false := (h []).1 (Nat.pos_of_ne_zero hne)
    rw [hdone] at hbusy
    cases hbusy
  exact fun ks => (h ks).2 (by omega)

theorem Keeps.wait (h : Keeps expand schedule key ke) (k : Block) :
    Keeps expand schedule key (expand.wait ke k) := fun ks => h (k :: ks)

theorem Keeps.rk (h : Keeps expand schedule key ke) {j : ℕ} (hj : j ≤ 10) :
    rk (expand.roundKeysFlat ke) j = schedule key j := (h []).2 j hj

end Expander

namespace Core

variable {s : Core κ} {i : Inputs} {key pt : Block} {r : ℕ}

/-- There is no `done` of the run before while the expander is started. -/
def Fresh (expand : KeyExpand κ) (s : Core κ) (_ : Inputs) : Prop :=
  s.keStart = true → expand.done s.keyExpand = false

instance (s : Core κ) (i : Inputs) : Decidable (Fresh expand s i) :=
  inferInstanceAs (Decidable (_ → _))

/-- Where the core is with a key and a plaintext. -/
inductive Phase (expand : KeyExpand κ) (schedule : Block → ℕ → Block)
    (round : Block → Block → Bool → Block) (key pt : Block) (s : Core κ) : Prop where
  | latch (hstate : s.state = .latch) (hkey : s.savedKey = key) (hpt : s.savedPt = pt)
  | started (hstate : s.state = .keygen) (hbusy : s.keBusy = true) (hstart : s.keStart = true)
      (hkey : s.savedKey = key) (hpt : s.savedPt = pt)
  | keygen (hstate : s.state = .keygen) (hbusy : s.keBusy = true) (hstart : s.keStart = false)
      (hpt : s.savedPt = pt) (hworking : Working expand schedule key s.keyExpand)
  | ark (hstate : s.state = .ark) (hstart : s.keStart = false)
      (hkeeps : Keeps expand schedule key s.keyExpand)
      (hcur : s.curState = rounds schedule round key pt 0)
  | setup (r : ℕ) (hr : r ≤ 9) (hstate : s.state = .setup) (hstart : s.keStart = false)
      (hkeeps : Keeps expand schedule key s.keyExpand)
      (hnum : s.roundNum = BitVec.ofNat 4 (r + 1))
      (hcur : s.curState = rounds schedule round key pt r)
  | capture (r : ℕ) (hr : r ≤ 9) (hstate : s.state = .capture) (hstart : s.keStart = false)
      (hkeeps : Keeps expand schedule key s.keyExpand)
      (hnum : s.roundNum = BitVec.ofNat 4 (r + 1))
      (hin : s.roundStateIn = rounds schedule round key pt r)
      (hsel : s.roundKeySel = schedule key (r + 1)) (hlast : s.roundLast = (r + 1 == 10))
  | done (hstate : s.state = .done) (hcur : s.curState = encrypt schedule round key pt)

/-- The last round has its own number. -/
theorem roundNum_eq_ten_iff (hr : r ≤ 9) : BitVec.ofNat 4 (r + 1) = 10 ↔ r = 9 := by
  rw [← BitVec.toNat_inj, BitVec.toNat_ofNat]
  change (r + 1) % 16 = 10 ↔ _
  omega

theorem toNat_roundNum (hr : r ≤ 9) : (BitVec.ofNat 4 (r + 1)).toNat = r + 1 := by
  rw [BitVec.toNat_ofNat]
  exact Nat.mod_eq_of_lt (by omega)

theorem beq_roundNum (hr : r ≤ 9) : (BitVec.ofNat 4 (r + 1) == 10) = (r + 1 == 10) := by
  rw [Bool.eq_iff_iff, beq_iff_eq, beq_iff_eq, roundNum_eq_ten_iff hr]
  omega

/-- While no start pulse is up, the expander keeps its keys over a clock edge. -/
theorem keeps_step (hstart : s.keStart = false) (hkeeps : Keeps expand schedule key s.keyExpand) :
    Keeps expand schedule key (expand.step s.keyExpand s.keStart s.savedKey) := by
  rw [hstart]
  exact hkeeps.wait s.savedKey

/-- A clock edge while the core waits for the expander. -/
theorem keygen_step (hstate : s.state = .keygen) (hbusy : s.keBusy = true)
    (hstart : s.keStart = false) (hpt : s.savedPt = pt)
    (hworking : Working expand schedule key s.keyExpand) :
    Phase expand schedule round key pt (s.step expand round i) ∧
      (s.step expand round i).done = s.done := by
  by_cases hke : expand.done s.keyExpand = true
  · have hkeeps := hworking.keeps hke
    have hstep : s.step expand round i =
        { s with
          keStart := false
          keyExpand := expand.step s.keyExpand s.keStart s.savedKey
          keBusy := false
          curState := s.savedPt ^^^ rk (expand.roundKeysFlat s.keyExpand) 0
          state := .ark } := by
      simp [Core.step, hstate, hbusy, hke]
    rw [hstep, hkeeps.rk (Nat.zero_le 10), hpt]
    exact ⟨.ark rfl rfl (keeps_step hstart hkeeps) rfl, rfl⟩
  · have hstep : s.step expand round i =
        { s with
          keStart := false
          keyExpand := expand.step s.keyExpand s.keStart s.savedKey } := by
      simp [Core.step, hstate, hke]
    rw [hstep, hstart]
    exact ⟨.keygen hstate hbusy rfl hpt (hworking.wait s.savedKey), rfl⟩

/-- A clock edge at which the result of a round is taken: the tenth one is the last. -/
theorem capture_step (hr : r ≤ 9) (hstate : s.state = .capture) (hstart : s.keStart = false)
    (hkeeps : Keeps expand schedule key s.keyExpand)
    (hnum : s.roundNum = BitVec.ofNat 4 (r + 1))
    (hnext : round s.roundStateIn s.roundKeySel s.roundLast =
      rounds schedule round key pt (r + 1)) :
    Phase expand schedule round key pt (s.step expand round i) ∧
      (s.step expand round i).done = s.done := by
  by_cases hten : r = 9
  · have hstep : s.step expand round i =
        { s with
          keStart := false
          keyExpand := expand.step s.keyExpand s.keStart s.savedKey
          curState := round s.roundStateIn s.roundKeySel s.roundLast
          state := .done } := by
      simp [Core.step, hstate, hnum, hten]
    rw [hstep, hnext, hten]
    exact ⟨.done rfl rfl, rfl⟩
  · have hne : s.roundNum ≠ 10#4 := by
      rw [hnum]
      exact fun heq => hten ((roundNum_eq_ten_iff hr).mp heq)
    have hstep : s.step expand round i =
        { s with
          keStart := false
          keyExpand := expand.step s.keyExpand s.keStart s.savedKey
          curState := round s.roundStateIn s.roundKeySel s.roundLast
          roundNum := s.roundNum + 1
          state := .setup } := by
      simp [Core.step, hstate, hne]
    rw [hstep, hnext]
    refine ⟨.setup (r + 1) (by omega) rfl rfl (keeps_step hstart hkeeps) ?_ rfl, rfl⟩
    change s.roundNum + 1 = _
    rw [hnum]
    exact (BitVec.ofNat_add (r + 1) 1).symm

/-- A clock edge within an encryption. -/
theorem Phase.step (h : Phase expand schedule round key pt s)
    (hsamples : Samples expand schedule) (hfresh : Fresh expand s i) (hdone : s.state ≠ .done) :
    Phase expand schedule round key pt (s.step expand round i) ∧
      (s.step expand round i).done = s.done := by
  cases h with
  | latch hstate hkey hpt =>
    refine ⟨.started ?_ ?_ ?_ ?_ ?_, ?_⟩ <;> simp [Core.step, hstate, hkey, hpt]
  | started hstate hbusy hstart hkey hpt =>
    have hnot := hfresh hstart
    have hstep : s.step expand round i =
        { s with keStart := false, keyExpand := expand.step s.keyExpand true key } := by
      simp [Core.step, hstate, hbusy, hnot, hstart, hkey]
    rw [hstep]
    exact ⟨.keygen hstate hbusy rfl hpt (hsamples s.keyExpand key), rfl⟩
  | keygen hstate hbusy hstart hpt hworking =>
    exact keygen_step hstate hbusy hstart hpt hworking
  | ark hstate hstart hkeeps hcur =>
    have hstep : s.step expand round i =
        { s with
          keStart := false
          keyExpand := expand.step s.keyExpand s.keStart s.savedKey
          roundStateIn := s.curState
          roundKeySel := rk (expand.roundKeysFlat s.keyExpand) 1
          roundLast := false
          roundNum := 1
          state := .capture } := by
      simp [Core.step, hstate]
    rw [hstep, hkeeps.rk (by decide)]
    exact ⟨.capture 0 (Nat.zero_le 9) rfl rfl (keeps_step hstart hkeeps) rfl hcur rfl rfl, rfl⟩
  | setup r hr hstate hstart hkeeps hnum hcur =>
    have hstep : s.step expand round i =
        { s with
          keStart := false
          keyExpand := expand.step s.keyExpand s.keStart s.savedKey
          roundStateIn := s.curState
          roundKeySel := rk (expand.roundKeysFlat s.keyExpand) s.roundNum.toNat
          roundLast := s.roundNum == 10
          state := .capture } := by
      simp [Core.step, hstate]
    rw [hstep, hnum, toNat_roundNum hr, hkeeps.rk (by omega)]
    exact ⟨.capture r hr rfl rfl (keeps_step hstart hkeeps) rfl hcur rfl (beq_roundNum hr), rfl⟩
  | capture r hr hstate hstart hkeeps hnum hin hsel hlast =>
    refine capture_step hr hstate hstart hkeeps hnum ?_
    rw [hin, hsel, hlast]
    rfl
  | done hstate hcur => exact absurd hstate hdone

/-- The last clock edge of an encryption. -/
theorem step_of_done (hstate : s.state = .done) :
    (s.step expand round i).state = .idle ∧ (s.step expand round i).done = true ∧
      (s.step expand round i).ciphertextOut = s.curState := by
  simp [Core.step, hstate]

/-- A clock edge between two encryptions. -/
theorem step_of_idle (hstate : s.state = .idle) :
    (s.step expand round i).done = false ∧
      ((i.start = false ∧ (s.step expand round i).state = .idle) ∨
        (i.start = true ∧ Phase expand schedule round i.keyIn i.plaintextIn
          (s.step expand round i))) := by
  cases hstart : i.start with
  | false => simp [Core.step, hstate, hstart]
  | true =>
    refine ⟨by simp [Core.step, hstate, hstart], .inr ⟨rfl, .latch ?_ ?_ ?_⟩⟩ <;>
      simp [Core.step, hstate, hstart]

/-! ### Runs -/

/-- What has been started and what has come out. -/
structure Tracks (expand : KeyExpand κ) (schedule : Block → ℕ → Block)
    (round : Block → Block → Bool → Block) (s : Core κ) (starts : List (Block × Block))
    (ciphertexts : List Block) : Prop where
  phases : ∃ finished, ciphertexts = finished.map (fun x => encrypt schedule round x.1 x.2) ∧
    ((s.state = .idle ∧ starts = finished) ∨
      ∃ key pt, s.done = false ∧ Phase expand schedule round key pt s ∧
        starts = finished ++ [(key, pt)])

/-- Within an encryption the core is not idle. -/
theorem Phase.ne_idle (h : Phase expand schedule round key pt s) : s.state ≠ .idle := by
  cases h <;> simp [*]

theorem Tracks.step {starts : List (Block × Block)} {ciphertexts : List Block}
    (h : Tracks expand schedule round s starts ciphertexts) (hsamples : Samples expand schedule)
    (hfresh : Fresh expand s i) :
    Tracks expand schedule round (s.step expand round i) (starts ++ s.accepted i)
      (ciphertexts ++ s.pulse expand round i) := by
  obtain ⟨finished, rfl, hphase⟩ := h.phases
  rcases hphase with ⟨hidle, rfl⟩ | ⟨key, pt, hlow, hphase, rfl⟩
  · obtain ⟨hdone, hnext⟩ := @step_of_idle κ expand schedule round s i hidle
    have hpulse : s.pulse expand round i = [] := by simp [pulse, hdone]
    rw [hpulse, List.append_nil]
    rcases hnext with ⟨hstart, hstate⟩ | ⟨hstart, hphase⟩
    · have hnone : s.accepted i = [] := by simp [accepted, hstart]
      rw [hnone, List.append_nil]
      exact ⟨starts, rfl, .inl ⟨hstate, rfl⟩⟩
    · have hone : s.accepted i = [(i.keyIn, i.plaintextIn)] := by simp [accepted, hidle, hstart]
      rw [hone]
      exact ⟨starts, rfl, .inr ⟨_, _, hdone, hphase, rfl⟩⟩
  · have hnone : s.accepted i = [] := by simp [accepted, hphase.ne_idle]
    rw [hnone, List.append_nil]
    by_cases hdone : s.state = .done
    · obtain ⟨hidle, hup, hout⟩ := @step_of_done κ expand round s i hdone
      have hcur : s.curState = encrypt schedule round key pt := by
        cases hphase <;> simp_all
      have hpulse : s.pulse expand round i = [encrypt schedule round key pt] := by
        rw [pulse, if_pos hup, hout, hcur]
      rw [hpulse]
      exact ⟨finished ++ [(key, pt)], by simp, .inl ⟨hidle, rfl⟩⟩
    · obtain ⟨hphase', hsame⟩ := hphase.step hsamples hfresh hdone
      have hpulse : s.pulse expand round i = [] := by
        rw [pulse, hsame, hlow]
        rfl
      rw [hpulse, List.append_nil]
      exact ⟨finished, rfl, .inr ⟨key, pt, hsame.trans hlow, hphase', rfl⟩⟩

theorem tracks_run (hsamples : Samples expand schedule) {is : List Inputs}
    (hfresh : Runs.StepsMeet (step expand round) (Fresh expand) (reset expand) is) :
    Tracks expand schedule round (Runs.run (step expand round) (reset expand) is)
      (starts expand round (reset expand) is) (ciphertexts expand round (reset expand) is) := by
  induction is using List.reverseRecOn with
  | nil => exact ⟨[], rfl, .inl ⟨rfl, rfl⟩⟩
  | append_singleton is i ih =>
    rw [Runs.stepsMeet_concat] at hfresh
    rw [starts, ciphertexts, Runs.trace_concat, Runs.trace_concat, Runs.run_append]
    exact (ih hfresh.1).step hsamples hfresh.2

/-! ### How long it takes -/

/-- Whatever comes, there is a pulse within some clock edges. -/
def Soon (expand : KeyExpand κ) (round : Block → Block → Bool → Block) (s : Core κ) : Prop :=
  ∃ n, ∀ more : List Inputs, n ≤ more.length → ciphertexts expand round s more ≠ []

/-- It is enough that there is one soon after the next clock edge. -/
theorem soon_of_step {t : Core κ} (hstep : ∀ i, s.step expand round i = t)
    (h : Soon expand round t) : Soon expand round s := by
  obtain ⟨n, h⟩ := h
  refine ⟨n + 1, fun more hmore => ?_⟩
  cases more with
  | nil => simp at hmore
  | cons i more =>
    rw [List.length_cons] at hmore
    change s.pulse expand round i ++ ciphertexts expand round (s.step expand round i) more ≠ []
    rw [hstep i]
    exact List.append_ne_nil_of_right_ne_nil _ (h more (by omega))

theorem soon_of_done (hstate : s.state = .done) : Soon expand round s := by
  refine ⟨1, fun more hmore => ?_⟩
  cases more with
  | nil => simp at hmore
  | cons i more =>
    have hpulse : s.pulse expand round i = [s.curState] := by
      obtain ⟨-, hup, hout⟩ := @step_of_done κ expand round s i hstate
      rw [pulse, if_pos hup, hout]
    change s.pulse expand round i ++ _ ≠ []
    rw [hpulse]
    exact List.cons_ne_nil _ _

/-- A round that is set up is captured next. -/
theorem soon_of_setup (hstate : s.state = .setup)
    (hcapture : ∀ t : Core κ, t.state = .capture → t.roundNum = s.roundNum →
      Soon expand round t) : Soon expand round s := by
  apply soon_of_step (t := s.step expand round ⟨false, 0, 0⟩)
  · simp [Core.step, hstate]
  · apply hcapture
    · simp [Core.step, hstate]
    · simp [Core.step, hstate]

/-- From a round on. -/
theorem soon_of_capture (hr : r ≤ 9) (hstate : s.state = .capture)
    (hnum : s.roundNum = BitVec.ofNat 4 (r + 1)) : Soon expand round s := by
  induction h : 9 - r generalizing r s with
  | zero =>
    obtain rfl : r = 9 := by omega
    apply soon_of_step (t := s.step expand round ⟨false, 0, 0⟩)
    · simp [Core.step, hstate]
    · apply soon_of_done
      simp [Core.step, hstate, hnum]
  | succ k ih =>
    have hne : s.roundNum ≠ 10#4 := by
      rw [hnum]
      exact fun heq => absurd ((roundNum_eq_ten_iff hr).mp heq) (by omega)
    have hnext : s.roundNum + 1 = BitVec.ofNat 4 (r + 1 + 1) := by
      rw [hnum]
      exact (BitVec.ofNat_add (r + 1) 1).symm
    apply soon_of_step (t := s.step expand round ⟨false, 0, 0⟩)
    · simp [Core.step, hstate, hne]
    · apply soon_of_setup
      · simp [Core.step, hstate, hne]
      · intro t hcapture hsame
        apply ih (r := r + 1) (by omega) hcapture _ (by omega)
        rw [hsame, ← hnext]
        simp [Core.step, hstate, hne]

/-- From the first round on. -/
theorem soon_of_ark (hstate : s.state = .ark) : Soon expand round s := by
  apply soon_of_step (t := s.step expand round ⟨false, 0, 0⟩)
  · simp [Core.step, hstate]
  · apply soon_of_capture (Nat.zero_le 9)
    · simp [Core.step, hstate]
    · simp [Core.step, hstate]

/-- From the wait for the expander on. -/
theorem soon_of_keygen (hstate : s.state = .keygen) (hbusy : s.keBusy = true)
    (hstart : s.keStart = false) (hworking : Working expand schedule key s.keyExpand) :
    Soon expand round s := by
  obtain ⟨latency, h⟩ := hworking
  induction latency generalizing s with
  | zero =>
    have hke : expand.done s.keyExpand = true := ((h []).2 (Nat.zero_le _)).1
    apply soon_of_step (t := s.step expand round ⟨false, 0, 0⟩)
    · simp [Core.step, hstate]
    · apply soon_of_ark
      simp [Core.step, hstate, hbusy, hke]
  | succ latency ih =>
    have hke : expand.done s.keyExpand = false := (h []).1 (Nat.succ_pos _)
    apply soon_of_step (t := s.step expand round ⟨false, 0, 0⟩)
    · simp [Core.step, hstate]
    · apply ih
      · simp [Core.step, hstate, hke]
      · simp [Core.step, hstate, hbusy, hke]
      · simp [Core.step, hstate, hke]
      · intro ks
        have hwait : (s.step expand round ⟨false, 0, 0⟩).keyExpand =
            expand.wait s.keyExpand s.savedKey := by
          simp [Core.step, hstate, hke, hstart, KeyExpand.wait]
        obtain ⟨hlow, hup⟩ := h (s.savedKey :: ks)
        rw [List.length_cons, Runs.run_cons] at hlow hup
        rw [hwait]
        exact ⟨fun hlt => hlow (by omega), fun hle => hup (by omega)⟩

/-- **Every encryption ends**, whether or not there is a `done` of the run before. -/
theorem Phase.soon (h : Phase expand schedule round key pt s)
    (hsamples : Samples expand schedule) : Soon expand round s := by
  have hstarted : ∀ t : Core κ, t.state = .keygen → t.keBusy = true → t.keStart = true →
      Soon expand round t := by
    intro t hstate hbusy hstart
    apply soon_of_step (t := t.step expand round ⟨false, 0, 0⟩)
    · simp [Core.step, hstate]
    · by_cases hke : expand.done t.keyExpand = true
      · apply soon_of_ark
        simp [Core.step, hstate, hbusy, hke]
      · apply @soon_of_keygen κ expand schedule round _ t.savedKey
        · simp [Core.step, hstate, hke]
        · simp [Core.step, hstate, hbusy, hke]
        · simp [Core.step, hstate, hke]
        · have hsampled := hsamples t.keyExpand t.savedKey
          simpa [Core.step, hstate, hke, hstart] using hsampled
  cases h with
  | latch hstate hkey hpt =>
    apply soon_of_step (t := s.step expand round ⟨false, 0, 0⟩)
    · simp [Core.step, hstate]
    · apply hstarted <;> simp [Core.step, hstate]
  | started hstate hbusy hstart hkey hpt => exact hstarted s hstate hbusy hstart
  | keygen hstate hbusy hstart hpt hworking => exact soon_of_keygen hstate hbusy hstart hworking
  | ark hstate hstart hkeeps hcur => exact soon_of_ark hstate
  | setup r hr hstate hstart hkeeps hnum hcur =>
    apply soon_of_setup hstate
    intro t hcapture hsame
    exact soon_of_capture hr hcapture (hsame.trans hnum)
  | capture r hr hstate hstart hkeeps hnum hin hsel hlast => exact soon_of_capture hr hstate hnum
  | done hstate hcur => exact soon_of_done hstate

/-- The core encrypts what is started in a run: the ciphertexts at the pulses of `done` are, in
order, the encryptions of the plaintexts under the keys sampled with the starts; there is at most
one start without its pulse, and whatever comes, it has it after some clock edges; and while the
core is busy its inputs have no effect. -/
structure Encrypts (expand : KeyExpand κ) (schedule : Block → ℕ → Block)
    (round : Block → Block → Bool → Block) (is : List Inputs) : Prop where
  inOrder : ciphertexts expand round (reset expand) is <+:
    (starts expand round (reset expand) is).map fun x => encrypt schedule round x.1 x.2
  oneOpen : (starts expand round (reset expand) is).length ≤
    (ciphertexts expand round (reset expand) is).length + 1
  finishes : ∃ n, ∀ more : List Inputs, n ≤ more.length →
    (starts expand round (reset expand) is).length ≤
      (ciphertexts expand round (reset expand) (is ++ more)).length
  ignores : (Runs.run (step expand round) (reset expand) is).state ≠ .idle → ∀ i i',
    (Runs.run (step expand round) (reset expand) is).step expand round i =
      (Runs.run (step expand round) (reset expand) is).step expand round i'

/-- Only an idle core looks at its inputs. -/
theorem step_of_ne_idle (hstate : s.state ≠ .idle) (i i' : Inputs) :
    s.step expand round i = s.step expand round i' := by
  unfold Core.step
  cases h : s.state with
  | idle => exact absurd h hstate
  | latch => rfl
  | keygen => rfl
  | ark => rfl
  | setup => rfl
  | capture => rfl
  | done => rfl

/-- **The core encrypts** in every run in which the expander, whenever it is started, does not
show a `done` of the run before. -/
theorem encrypts_of_fresh (hsamples : Samples expand schedule) {is : List Inputs}
    (hfresh : Runs.StepsMeet (step expand round) (Fresh expand) (reset expand) is) :
    Encrypts expand schedule round is := by
  obtain ⟨finished, hciphertexts, hphase⟩ := (tracks_run hsamples hfresh).phases
  have hlength : (ciphertexts expand round (reset expand) is).length = finished.length := by
    rw [hciphertexts, List.length_map]
  rcases hphase with ⟨hidle, hstarts⟩ | ⟨key, pt, -, hphase, hstarts⟩
  · refine ⟨?_, ?_, ⟨0, fun more _ => ?_⟩, fun hbusy => absurd hidle hbusy⟩
    · rw [hciphertexts, hstarts]
    · rw [hlength, hstarts]
      exact Nat.le_succ _
    · rw [ciphertexts, Runs.trace_append, List.length_append, hstarts, ← hlength]
      exact Nat.le_add_right _ _
  · obtain ⟨n, hsoon⟩ := hphase.soon hsamples
    refine ⟨?_, ?_, ⟨n, fun more hmore => ?_⟩, fun hbusy => step_of_ne_idle hbusy⟩
    · rw [hciphertexts, hstarts, List.map_append]
      exact List.prefix_append _ _
    · rw [hlength, hstarts, List.length_append, List.length_singleton]
    · have hpos := List.length_pos_iff.mpr (hsoon more hmore)
      rw [ciphertexts, Runs.trace_append, List.length_append, hstarts, List.length_append,
        List.length_singleton, ← hlength]
      exact Nat.add_le_add_left hpos _

/-! ### AES-128 -/

theorem run_wait_perCycle (key : Block) (n : ℕ) (ks : List Block) :
    Runs.run perCycle.wait (some key, n) ks = (some key, n + ks.length) := by
  induction ks generalizing n with
  | nil => rfl
  | cons k ks ih =>
    have hwait : perCycle.wait (some key, n) k = (some key, n + 1) := rfl
    rw [Runs.run_cons, hwait, ih, List.length_cons, Nat.add_assoc, Nat.add_comm 1]

/-- The expander with one round key in each clock cycle does what is assumed. -/
theorem samples_perCycle : Samples perCycle aesSchedule := by
  intro ke key
  refine ⟨10, fun ks => ?_⟩
  have hsample : perCycle.step ke true key = (some key, 0) := rfl
  rw [hsample, run_wait_perCycle, Nat.zero_add]
  refine ⟨fun hlt => ?_, fun hle => ⟨?_, fun j hj => ?_⟩⟩
  · simpa [perCycle] using hlt
  · simpa [perCycle] using hle
  · have hkeys := @rk_flatten (fun j => if j ≤ ks.length then aesSchedule key j else 0) j hj
    rw [if_pos (by omega)] at hkeys
    exact hkeys

/-- A start, and clock cycles without one. -/
def started (key pt : Block) : List Inputs := ⟨true, key, pt⟩ :: List.replicate 40 ⟨false, 0, 0⟩

/-- One start. -/
theorem encrypts_of_fresh_one :
    Encrypts perCycle aesSchedule aesRound
      (started 0x2b7e151628aed2a6abf7158809cf4f3c 0x3243f6a8885a308d313198a2e0370734) :=
  encrypts_of_fresh samples_perCycle (by decide +kernel)

/-- The two tests of the testbench. -/
def twoKeys : List Inputs :=
  started 0x2b7e151628aed2a6abf7158809cf4f3c 0x3243f6a8885a308d313198a2e0370734 ++
    started 0 0xf34481ec3cc627bacd5dc3fb08f273e6

/-- The second encryption begins before its key is expanded, with a round key of the first. -/
theorem twoKeys_not_encrypts :
    Samples perCycle aesSchedule ∧ ¬ Encrypts perCycle aesSchedule aesRound twoKeys := by
  refine ⟨samples_perCycle, fun h => ?_⟩
  have hprefix := h.inOrder
  revert hprefix
  decide +kernel

end Core

end SecureWan.Aes
