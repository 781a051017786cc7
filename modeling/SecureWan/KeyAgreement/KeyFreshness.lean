import Mathlib.Data.List.Nodup
import SecureWan.KeyAgreement.Keyd

/-!
# Freshness of the exported keys

The context of an exported key is the epoch, a single byte, and a TLS key update
leaves the exporter secret alone. So a session exports new keys until the byte
wraps, and from its 257th rotation on the old ones again.
-/

namespace SecureWan.Keyd

variable {Secret Key : Type} {exporter : Exporter Secret Key} {rotateSec : ℤ} {s : Keyd Secret Key}

/-- The epochs of one session have different keys. -/
def ExporterInjective (exporter : Exporter Secret Key) : Prop :=
  ∀ secret, Function.Injective (exportTrafficKey exporter secret)

/-- No two rotations of the session exported the same key. -/
def KeysFresh (s : Keyd Secret Key) : Prop := (s.exported.map Prod.snd).Nodup

/-- A rotation happens while the session has used fewer than 256 epochs. -/
def EpochUnused (rotateSec : ℤ) (s : Keyd Secret Key) : Event Secret → Prop
  | .tick t => Rotates rotateSec s t → s.exported.length < 256
  | _ => True

/-- What the session has exported is the sequence of its rotations so far. -/
def ExportedInOrder (exporter : Exporter Secret Key) (s : Keyd Secret Key) : Prop :=
  ∀ secret, s.session = some secret →
    ∃ n, s.exported = (List.range n).map (rotationMsg exporter secret) ∧ s.epoch = UInt8.ofNat n

/-- The first `n` rotations of a session export different keys exactly when the
epoch byte has not wrapped. -/
theorem rotationMsg_nodup_iff (hinj : ExporterInjective exporter) (secret : Secret) (n : ℕ) :
    (((List.range n).map (rotationMsg exporter secret)).map Prod.snd).Nodup ↔ n ≤ 256 := by
  rw [List.map_map, List.nodup_map_iff_inj_on List.nodup_range]
  constructor
  · intro h
    by_contra hwrap
    have hsame : (Prod.snd ∘ rotationMsg exporter secret) 0 =
        (Prod.snd ∘ rotationMsg exporter secret) 256 := rfl
    exact absurd (h 0 (List.mem_range.mpr (by omega)) 256 (List.mem_range.mpr (by omega)) hsame)
      (by decide)
  · intro hn i hi j hj hkey
    have hbyte : UInt8.ofNat i = UInt8.ofNat j := hinj secret hkey
    have hnat := congrArg UInt8.toNat hbyte
    rw [UInt8.toNat_ofNat', UInt8.toNat_ofNat'] at hnat
    have := List.mem_range.mp hi
    have := List.mem_range.mp hj
    omega

/-- One more rotation. -/
theorem rotate_exported {secret : Secret} {n : ℕ} (t : Tick)
    (hexported : s.exported = (List.range n).map (rotationMsg exporter secret))
    (hepoch : s.epoch = UInt8.ofNat n) :
    (s.rotate exporter secret t).exported =
        (List.range (n + 1)).map (rotationMsg exporter secret) ∧
      (s.rotate exporter secret t).epoch = UInt8.ofNat (n + 1) := by
  constructor
  · simp only [rotate, hexported, hepoch, List.range_succ, List.map_append, List.map_cons,
      List.map_nil, rotationMsg]
  · rw [UInt8.ofNat_add n 1, ← hepoch]
    rfl

/-- What a pass adds to the exported keys: one rotation if it rotates. -/
theorem pass_exported (exporter : Exporter Secret Key) (rotateSec : ℤ) {secret : Secret}
    (hsession : s.session = some secret) {n : ℕ} (t : Tick)
    (hexported : s.exported = (List.range n).map (rotationMsg exporter secret))
    (hepoch : s.epoch = UInt8.ofNat n) :
    ∃ k, (Rotates rotateSec s t ∧ k = n + 1 ∨ ¬Rotates rotateSec s t ∧ k = n) ∧
      (s.pass exporter rotateSec secret t).exported =
        (List.range k).map (rotationMsg exporter secret) ∧
      ((s.pass exporter rotateSec secret t).session = none ∨
        (s.pass exporter rotateSec secret t).session = some secret ∧
          (s.pass exporter rotateSec secret t).epoch = UInt8.ofNat k) := by
  have hopen : s.session.isSome = true := by rw [hsession]; rfl
  rcases pass_cases exporter rotateSec secret s t with ⟨hdue, hfail, hleave⟩ | ⟨hgo, hrest⟩
  · refine ⟨n, Or.inr ⟨?_, rfl⟩, by rw [hleave]; exact hexported, Or.inl (by rw [hleave]; rfl)⟩
    rintro ⟨_, _, hok⟩
    rw [hfail] at hok
    cases hok
  · by_cases hdue : Due rotateSec s t
    · have hok : t.exportOk = true := by
        cases hexport : t.exportOk with
        | true => rfl
        | false => exact absurd ⟨hdue, hexport⟩ hgo
      obtain ⟨hexported', hepoch'⟩ := rotate_exported t hexported hepoch
      simp only [if_pos hdue] at hrest
      refine ⟨n + 1, Or.inl ⟨⟨hopen, hdue, hok⟩, rfl⟩, ?_⟩
      rcases hrest with ⟨_, hpass⟩ | ⟨_, hpass⟩
      · exact ⟨by rw [hpass]; exact hexported', Or.inl (by rw [hpass]; rfl)⟩
      · rw [hpass]
        refine ⟨by rw [accept_exported]; exact hexported', Or.inr ⟨?_, ?_⟩⟩
        · rw [accept_session]
          exact hsession
        · rw [accept_epoch]
          exact hepoch'
    · simp only [if_neg hdue] at hrest
      refine ⟨n, Or.inr ⟨fun hrotates => hdue hrotates.2.1, rfl⟩, ?_⟩
      rcases hrest with ⟨_, hpass⟩ | ⟨_, hpass⟩
      · exact ⟨by rw [hpass]; exact hexported, Or.inl (by rw [hpass]; rfl)⟩
      · rw [hpass]
        refine ⟨by rw [accept_exported]; exact hexported, Or.inr ⟨?_, ?_⟩⟩
        · rw [accept_session]
          exact hsession
        · rw [accept_epoch]
          exact hepoch

/-- **Step lemma.** Every event keeps the exported keys in order. -/
theorem exportedInOrder_step (s : Keyd Secret Key) (e : Event Secret)
    (h : ExportedInOrder exporter s) : ExportedInOrder exporter (step exporter rotateSec s e) := by
  cases e with
  | handshake secret pending helloOk =>
    unfold step
    cases hsession : s.session with
    | some _ => exact h
    | none =>
      intro secret' _
      exact ⟨0, rfl, rfl⟩
  | tick t =>
    unfold step
    cases hsession : s.session with
    | none => exact h
    | some secret =>
      obtain ⟨n, hexported, hepoch⟩ := h secret hsession
      obtain ⟨k, _, hexported', hafter⟩ :=
        pass_exported exporter rotateSec hsession t hexported hepoch
      intro secret' hsession'
      rcases hafter with hnone | ⟨hsome, hepoch'⟩
      · rw [hnone] at hsession'
        cases hsession'
      · obtain rfl := Option.some.inj (hsome.symm.trans hsession')
        exact ⟨k, hexported', hepoch'⟩
  | stop =>
    intro secret hsession
    cases hsession

/-- **Run lemma.** After any run, what the open session has exported are its first
rotations in order, starting with epoch 0. -/
theorem exportedInOrder_run (exporter : Exporter Secret Key) (rotateSec : ℤ)
    (es : List (Event Secret)) :
    ExportedInOrder exporter (Runs.run (step exporter rotateSec) start es) := by
  apply Runs.run_invariant (step exporter rotateSec) exportedInOrder_step
  intro secret hsession
  cases hsession

/-- **Step lemma.** An event keeps the keys fresh exactly when a rotation finds an
epoch byte that the session has not used. -/
theorem keysFresh_step_iff (hinj : ExporterInjective exporter) (s : Keyd Secret Key)
    (e : Event Secret) (hinv : ExportedInOrder exporter s) (hs : KeysFresh s) :
    KeysFresh (step exporter rotateSec s e) ↔ EpochUnused rotateSec s e := by
  cases e with
  | handshake secret pending helloOk =>
    refine iff_of_true ?_ trivial
    unfold step
    cases s.session with
    | some _ => exact hs
    | none => exact List.nodup_nil
  | tick t =>
    unfold step
    cases hsession : s.session with
    | none =>
      refine iff_of_true hs ?_
      rintro ⟨hopen, _⟩
      rw [hsession] at hopen
      cases hopen
    | some secret =>
      obtain ⟨n, hexported, hepoch⟩ := hinv secret hsession
      obtain ⟨k, hcount, hexported', _⟩ :=
        pass_exported exporter rotateSec hsession t hexported hepoch
      have hlength : s.exported.length = n := by rw [hexported, List.length_map, List.length_range]
      have hfresh : n ≤ 256 := by
        rw [KeysFresh, hexported] at hs
        exact (rotationMsg_nodup_iff hinj secret n).mp hs
      rw [KeysFresh, hexported', rotationMsg_nodup_iff hinj, EpochUnused, hlength]
      rcases hcount with ⟨hrotates, rfl⟩ | ⟨hrotates, rfl⟩
      · exact ⟨fun hle _ => hle, fun h => h hrotates⟩
      · exact iff_of_true hfresh (fun h => absurd h hrotates)
  | stop => exact iff_of_true hs trivial

/-- **Key freshness.** In every run, no session exports a key twice exactly when
every rotation comes before the epoch byte wraps. -/
theorem keysFresh_iff (exporter : Exporter Secret Key) (hinj : ExporterInjective exporter)
    (rotateSec : ℤ) (es : List (Event Secret)) :
    Runs.Throughout (step exporter rotateSec) KeysFresh start es ↔
      Runs.StepsMeet (step exporter rotateSec) (EpochUnused rotateSec) start es := by
  have hinit : ExportedInOrder exporter (start : Keyd Secret Key) :=
    exportedInOrder_run exporter rotateSec []
  have hfresh : KeysFresh (start : Keyd Secret Key) := List.nodup_nil
  exact Runs.throughout_iff_stepsMeet (fun s e hinv _ _ => exportedInOrder_step s e hinv)
    (keysFresh_step_iff hinj) hinit hfresh es

/-- The exporter that hands out its inputs. -/
def symbolicExporter : Exporter ℕ (ℕ × String × Bytes) := fun secret label context =>
  (secret, label, context)

theorem symbolicExporter_injective : ExporterInjective symbolicExporter := by
  intro secret epoch epoch' h
  simpa [exportTrafficKey, symbolicExporter] using h

/-- A session that rotates `n` times, every two minutes, with no application. -/
def rotatingSession (n : ℕ) : List (Event ℕ) :=
  .handshake 0 false false ::
    (List.range n).map fun i : ℕ => .tick ⟨120 * ((i : ℤ) + 1), true, true, .wantRead, false⟩

/-- Two rotations of one session export different keys. -/
theorem keysFresh_twoRotations :
    Runs.Throughout (step symbolicExporter 120) KeysFresh start (rotatingSession 2) :=
  (keysFresh_iff symbolicExporter symbolicExporter_injective 120 (rotatingSession 2)).mpr
    ⟨trivial, fun _ => by decide, fun _ => by decide, trivial⟩

/-- The rotating session exports the keys of its rotations in order. -/
theorem run_rotatingSession (n : ℕ) :
    let s := Runs.run (step symbolicExporter 120) start (rotatingSession n)
    s.session = some 0 ∧ s.last = 120 * n ∧ s.epoch = UInt8.ofNat n ∧
      s.exported = (List.range n).map (rotationMsg symbolicExporter 0) := by
  induction n with
  | zero => exact ⟨rfl, rfl, rfl, rfl⟩
  | succ n ih =>
    obtain ⟨hsession, hlast, hepoch, hexported⟩ := ih
    let s := Runs.run (step symbolicExporter 120) start (rotatingSession n)
    let t : Tick := ⟨120 * ((n : ℤ) + 1), true, true, .wantRead, false⟩
    have hrun : Runs.run (step symbolicExporter 120) start (rotatingSession (n + 1)) =
        (s.rotate symbolicExporter 0 t).accept t := by
      have hsplit : rotatingSession (n + 1) = rotatingSession n ++ [.tick t] := by
        simp only [rotatingSession, List.range_succ, List.map_append, List.map_cons, List.map_nil,
          List.cons_append, t]
      have hdue : Due 120 s t := by
        change 120 ≤ 120 * ((n : ℤ) + 1) - s.last
        rw [hlast]
        omega
      have hgo : ¬(Due 120 s t ∧ t.exportOk = false) := by
        rintro ⟨_, hfail⟩
        cases hfail
      rw [hsplit, Runs.run_append, Runs.run_cons, Runs.run_nil]
      change step symbolicExporter 120 s (.tick t) = _
      simp only [step, hsession, s, pass, if_neg hgo, if_pos hdue]
      rfl
    obtain ⟨hexported', hepoch'⟩ := rotate_exported (s := s) t hexported hepoch
    rw [hrun]
    refine ⟨?_, ?_, ?_, ?_⟩
    · rw [accept_session]
      exact hsession
    · unfold accept
      split <;> simp [rotate, t]
    · rw [accept_epoch]
      exact hepoch'
    · rw [accept_exported]
      exact hexported'

/-- The 257th rotation of a session exports the key of the first again. -/
theorem keysFresh_wraps :
    ¬Runs.Throughout (step symbolicExporter 120) KeysFresh start (rotatingSession 257) := by
  intro h
  have hfresh := Runs.throughout_iff.mp h (rotatingSession 257) (List.prefix_refl _)
  obtain ⟨_, _, _, hexported⟩ := run_rotatingSession 257
  rw [KeysFresh, hexported, rotationMsg_nodup_iff symbolicExporter_injective] at hfresh
  exact absurd hfresh (by decide)

end SecureWan.Keyd
