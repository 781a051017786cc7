import SecureWan.KeyAgreement.Keyd

/-!
# The key of the connected application

An application that connects while the rotation loop runs is accepted and told
nothing until the next rotation. Its connection holds the newest key exactly
when it was not accepted after the session's first export.
-/

namespace SecureWan.Keyd

variable {Secret Key : Type} {exporter : Exporter Secret Key} {rotateSec : ℤ} {s : Keyd Secret Key}

/-- The last key sent on an open application connection is the newest one that
the session has exported. -/
def AppCurrent (s : Keyd Secret Key) : Prop :=
  ∀ sent, s.uconn = some sent → ∀ newest, s.exported.getLast? = some newest →
    (sent.filterMap KeydMsg.installed).getLast? = some newest

/-- A pass accepts an application after the session has exported a key: the
connection is closed, or closes in this pass, and an application waits. -/
def AcceptsLate (rotateSec : ℤ) (s : Keyd Secret Key) (t : Tick) : Prop :=
  s.session.isSome = true ∧ ¬(Due rotateSec s t ∧ t.exportOk = false) ∧ t.peek.closes = false ∧
    t.pending = true ∧ (s.uconn = none ∨ (Due rotateSec s t ∧ t.sendOk = false)) ∧
    (s.exported ≠ [] ∨ Due rotateSec s t)

/-- No application is accepted late. -/
def AcceptsInTime (rotateSec : ℤ) (s : Keyd Secret Key) : Event Secret → Prop
  | .tick t => ¬AcceptsLate rotateSec s t
  | _ => True

/-- A closed connection needs no key. -/
theorem appCurrent_of_closed (h : s.uconn = none) : AppCurrent s := by
  intro sent hopen
  rw [h] at hopen
  cases hopen

/-- A rotation leaves the connection closed, or with the key it has exported. -/
theorem appCurrent_rotate (exporter : Exporter Secret Key) (secret : Secret) (s : Keyd Secret Key)
    (t : Tick) : AppCurrent (s.rotate exporter secret t) := by
  intro sent' hopen newest hnewest
  obtain ⟨sent, _, hsent⟩ := Option.bind_eq_some_iff.mp hopen
  simp only [rotate, List.getLast?_append, List.getLast?_singleton, Option.some_or,
    Option.some.injEq] at hnewest
  subst hnewest
  cases hsend : t.sendOk with
  | false => simp [hsend] at hsent
  | true =>
    simp only [hsend, if_true, Option.some.injEq] at hsent
    subst hsent
    simp [KeydMsg.installed]

/-- An application that is accepted in the loop has been sent nothing. -/
theorem appCurrent_accept_iff (h : AppCurrent s) (t : Tick) :
    AppCurrent (s.accept t) ↔ ¬(s.uconn = none ∧ t.pending = true ∧ s.exported ≠ []) := by
  by_cases hnew : s.uconn.isNone = true ∧ t.pending = true
  · have haccept : s.accept t = { s with uconn := some [] } := if_pos hnew
    have hclosed : s.uconn = none := Option.isNone_iff_eq_none.mp hnew.1
    rw [haccept]
    constructor
    · rintro hcurrent ⟨_, _, hexported⟩
      have hlast := hcurrent [] rfl (s.exported.getLast hexported)
        (List.getLast?_eq_some_getLast hexported)
      cases hlast
    · intro hempty sent _ newest hnewest
      have hnil : s.exported = [] := by
        by_contra hexported
        exact hempty ⟨hclosed, hnew.2, hexported⟩
      change s.exported.getLast? = some newest at hnewest
      rw [hnil] at hnewest
      cases hnewest
  · have haccept : s.accept t = s := if_neg hnew
    rw [haccept]
    refine iff_of_true h ?_
    rintro ⟨hclosed, hpending, _⟩
    exact hnew ⟨Option.isNone_iff_eq_none.mpr hclosed, hpending⟩

/-- Which connections a rotation leaves closed. -/
theorem rotate_uconn_eq_none_iff (secret : Secret) (t : Tick) :
    (s.rotate exporter secret t).uconn = none ↔ s.uconn = none ∨ t.sendOk = false := by
  cases hconn : s.uconn <;> cases hsend : t.sendOk <;> simp [rotate, hconn, hsend]

/-- **One pass.** The application stays current exactly when the pass does not
accept one late. -/
theorem appCurrent_pass_iff {secret : Secret} (hsession : s.session = some secret)
    (h : AppCurrent s) (t : Tick) :
    AppCurrent (s.pass exporter rotateSec secret t) ↔ ¬AcceptsLate rotateSec s t := by
  have hopen : s.session.isSome = true := by rw [hsession]; rfl
  rcases pass_cases exporter rotateSec secret s t with ⟨hdue, hfail, hpass⟩ | ⟨hgo, hrest⟩
  · refine iff_of_true (hpass ▸ appCurrent_of_closed rfl) ?_
    rintro ⟨_, hgo, _⟩
    exact hgo ⟨hdue, hfail⟩
  rcases hrest with ⟨hclose, hpass⟩ | ⟨hclose, hpass⟩
  · refine iff_of_true (hpass ▸ appCurrent_of_closed rfl) ?_
    rintro ⟨_, _, hgoes, _⟩
    rw [hclose] at hgoes
    cases hgoes
  rw [hpass]
  by_cases hdue : Due rotateSec s t
  · have hexported : (s.rotate exporter secret t).exported ≠ [] :=
      List.append_ne_nil_of_right_ne_nil _ (List.cons_ne_nil _ _)
    rw [if_pos hdue, appCurrent_accept_iff (appCurrent_rotate exporter secret s t),
      rotate_uconn_eq_none_iff]
    apply not_congr
    constructor
    · rintro ⟨hclosed, hpending, _⟩
      refine ⟨hopen, hgo, hclose, hpending, ?_, Or.inr hdue⟩
      exact hclosed.imp_right fun hsend => ⟨hdue, hsend⟩
    · rintro ⟨_, _, _, hpending, hclosed, _⟩
      exact ⟨hclosed.imp_right And.right, hpending, hexported⟩
  · rw [if_neg hdue, appCurrent_accept_iff h]
    apply not_congr
    constructor
    · rintro ⟨hclosed, hpending, hexported⟩
      exact ⟨hopen, hgo, hclose, hpending, Or.inl hclosed, Or.inl hexported⟩
    · rintro ⟨_, _, _, hpending, hclosed, hexported⟩
      have hidle {p : Prop} : ¬(Due rotateSec s t ∧ p) := fun h => hdue h.1
      exact ⟨hclosed.resolve_right hidle, hpending, hexported.resolve_right hdue⟩

/-- **Step lemma.** An event keeps the application current exactly when it does not
accept one late. -/
theorem appCurrent_step_iff (s : Keyd Secret Key) (e : Event Secret) (h : AppCurrent s) :
    AppCurrent (step exporter rotateSec s e) ↔ AcceptsInTime rotateSec s e := by
  cases e with
  | handshake secret pending helloOk =>
    refine iff_of_true ?_ trivial
    unfold step
    cases s.session with
    | some _ => exact h
    | none =>
      intro sent _ newest hnewest
      cases hnewest
  | tick t =>
    unfold step
    cases hsession : s.session with
    | none =>
      refine iff_of_true h ?_
      rintro ⟨hopen, _⟩
      rw [hsession] at hopen
      cases hopen
    | some secret => exact appCurrent_pass_iff hsession h t
  | stop => exact iff_of_true (appCurrent_of_closed rfl) trivial

/-- **The application's key.** In every run, an open application connection holds
the newest exported key after every event exactly when no application is
accepted in the loop after its session's first export. -/
theorem appCurrent_iff (exporter : Exporter Secret Key) (rotateSec : ℤ)
    (es : List (Event Secret)) :
    Runs.Throughout (step exporter rotateSec) AppCurrent start es ↔
      Runs.StepsMeet (step exporter rotateSec) (AcceptsInTime rotateSec) start es := by
  have hstart : AppCurrent (start : Keyd Secret Key) := appCurrent_of_closed rfl
  exact Runs.throughout_iff_stepsMeet (fun _ _ _ _ _ => trivial)
    (fun s e (_ : True) h => appCurrent_step_iff s e h) trivial hstart es

/-- A session whose application connects after the first rotation. -/
def lateApplication : List (Event ℕ) :=
  [.handshake 0 false false, .tick ⟨120, true, true, .wantRead, true⟩]

/-- The late application is connected, and has no key. -/
theorem lateApplication_hasNoKey :
    ¬Runs.Throughout (step (fun (secret : ℕ) _ context => (secret, context)) 120) AppCurrent start
      lateApplication := by
  intro h
  have hlate := Runs.throughout_iff.mp h lateApplication (List.prefix_refl _)
  have hlast := hlate [] rfl (0, (0, [0])) rfl
  cases hlast

end SecureWan.Keyd
