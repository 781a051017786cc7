import SecureWan.Lib.Bytes
import SecureWan.Lib.Runs

/-!
# The key daemon

The main loop of `keyd`: one TLS session after the other, in each a rotation of
traffic keys that are sent to the application on the unix socket. The exporter
of the TLS library is a parameter: a key from the session's exporter secret, a
label and a context. The magic and version fields of a message are constants and
left out.
-/

namespace SecureWan

/-- `struct keyd_msg`, by its type field. -/
inductive KeydMsg (Key : Type) where
  | hello
  | installKey (epoch : UInt8) (key : Key)
  | retire (epoch : UInt8)
  deriving DecidableEq

/-- The key that a message installs, with its epoch. -/
def KeydMsg.installed {Key : Type} : KeydMsg Key → Option (UInt8 × Key)
  | .installKey epoch key => some (epoch, key)
  | _ => none

/-- `KEYD_EXPORT_LABEL`. -/
def keydExportLabel : String := "EXPORTER-l2fwd-traffic-key"

/-- `SSL_export_keying_material`, from exporter secret, label and context. -/
abbrev Exporter (Secret Key : Type) := Secret → String → Bytes → Key

/-- `export_traffic_key`: the context is the epoch byte. -/
def exportTrafficKey {Secret Key : Type} (exporter : Exporter Secret Key) (secret : Secret)
    (epoch : UInt8) : Key :=
  exporter secret keydExportLabel [epoch]

/-- The epoch and key of the `n`th rotation of a session; the epoch is a byte. -/
def rotationMsg {Secret Key : Type} (exporter : Exporter Secret Key) (secret : Secret) (n : ℕ) :
    UInt8 × Key :=
  (UInt8.ofNat n, exportTrafficKey exporter secret (UInt8.ofNat n))

/-- What `SSL_peek` and `SSL_get_error` say. -/
inductive SslPeek where
  | data | wantRead | wantWrite | zeroReturn | syscall | otherError
  deriving DecidableEq

/-- The outcomes on which the rotation loop is left. -/
def SslPeek.closes : SslPeek → Bool
  | .zeroReturn | .syscall => true
  | _ => false

/-- The variables of the daemon. -/
structure Keyd (Secret Key : Type) where
  /-- The exporter secret of the TLS session, while the rotation loop runs. -/
  session : Option Secret
  /-- The application connection, if it is open, with the messages sent on it. -/
  uconn : Option (List (KeydMsg Key))
  epoch : UInt8
  last : ℤ
  /-- The epochs and keys exported in this session, in order. -/
  exported : List (UInt8 × Key)

namespace Keyd

variable {Secret Key : Type}

/-- The daemon before its first TLS session. -/
def start : Keyd Secret Key := ⟨none, none, 0, 0, []⟩

/-- What one pass of the rotation loop meets: the clock, whether the exporter and
the send work, what the TLS connection says, and whether an application waits. -/
structure Tick where
  now : ℤ
  exportOk : Bool
  sendOk : Bool
  peek : SslPeek
  pending : Bool

/-- What the daemon does next. -/
inductive Event (Secret : Type) where
  /-- A TLS handshake completes; an application that waits is accepted. -/
  | handshake (secret : Secret) (pending helloOk : Bool)
  /-- One pass of the rotation loop. -/
  | tick (t : Tick)
  /-- `g_stop` is set. -/
  | stop

/-- Leaving the rotation loop closes the application connection. -/
def leave (s : Keyd Secret Key) : Keyd Secret Key := { s with session := none, uconn := none }

/-- A rotation: the key is exported and sent, and a failed send closes the connection. -/
def rotate (exporter : Exporter Secret Key) (secret : Secret) (s : Keyd Secret Key) (t : Tick) :
    Keyd Secret Key :=
  let key := exportTrafficKey exporter secret s.epoch
  { s with
    uconn := s.uconn.bind fun sent =>
      if t.sendOk then some (sent ++ [.installKey s.epoch key]) else none
    epoch := s.epoch + 1
    last := t.now
    exported := s.exported ++ [(s.epoch, key)] }

/-- The non-blocking accept in the rotation loop. -/
def accept (s : Keyd Secret Key) (t : Tick) : Keyd Secret Key :=
  if s.uconn.isNone ∧ t.pending then { s with uconn := some [] } else s

/-- The rotation timer has run out. -/
def Due (rotateSec : ℤ) (s : Keyd Secret Key) (t : Tick) : Prop := rotateSec ≤ t.now - s.last

instance (rotateSec : ℤ) (s : Keyd Secret Key) (t : Tick) : Decidable (Due rotateSec s t) :=
  inferInstanceAs (Decidable (_ ≤ _))

/-- One pass of the rotation loop. -/
def pass (exporter : Exporter Secret Key) (rotateSec : ℤ) (secret : Secret) (s : Keyd Secret Key)
    (t : Tick) : Keyd Secret Key :=
  if Due rotateSec s t ∧ t.exportOk = false then s.leave
  else
    let s := if Due rotateSec s t then s.rotate exporter secret t else s
    if t.peek.closes then s.leave else s.accept t

/-- One event. -/
def step (exporter : Exporter Secret Key) (rotateSec : ℤ) (s : Keyd Secret Key) :
    Event Secret → Keyd Secret Key
  | .handshake secret pending helloOk =>
    match s.session with
    | some _ => s
    | none =>
      { session := some secret
        uconn := if pending then some (if helloOk then [.hello] else []) else none
        epoch := 0
        last := 0
        exported := [] }
  | .tick t =>
    match s.session with
    | some secret => s.pass exporter rotateSec secret t
    | none => s
  | .stop => s.leave

/-- What an event puts on the application connection. -/
def sent (exporter : Exporter Secret Key) (rotateSec : ℤ) (s : Keyd Secret Key) :
    Event Secret → List (KeydMsg Key)
  | .handshake _ pending helloOk =>
    if s.session.isNone ∧ pending ∧ helloOk then [.hello] else []
  | .tick t =>
    match s.session with
    | some secret =>
      if Due rotateSec s t ∧ t.exportOk ∧ t.sendOk ∧ s.uconn.isSome then
        [.installKey s.epoch (exportTrafficKey exporter secret s.epoch)]
      else []
    | none => []
  | .stop => []

/-- A pass that exports a key. -/
def Rotates (rotateSec : ℤ) (s : Keyd Secret Key) (t : Tick) : Prop :=
  s.session.isSome = true ∧ Due rotateSec s t ∧ t.exportOk = true

variable {exporter : Exporter Secret Key} {rotateSec : ℤ} {s : Keyd Secret Key}

@[simp] theorem accept_exported (s : Keyd Secret Key) (t : Tick) :
    (s.accept t).exported = s.exported := by
  unfold accept
  split <;> rfl

@[simp] theorem accept_session (s : Keyd Secret Key) (t : Tick) :
    (s.accept t).session = s.session := by
  unfold accept
  split <;> rfl

@[simp] theorem accept_epoch (s : Keyd Secret Key) (t : Tick) : (s.accept t).epoch = s.epoch := by
  unfold accept
  split <;> rfl

/-- The three ways a pass can end: it is left after a failed export or a closed
connection, or it goes on after the rotation, if one was due. -/
theorem pass_cases (exporter : Exporter Secret Key) (rotateSec : ℤ) (secret : Secret)
    (s : Keyd Secret Key) (t : Tick) :
    (Due rotateSec s t ∧ t.exportOk = false ∧ s.pass exporter rotateSec secret t = s.leave) ∨
      ¬(Due rotateSec s t ∧ t.exportOk = false) ∧
        (t.peek.closes = true ∧ s.pass exporter rotateSec secret t =
            (if Due rotateSec s t then s.rotate exporter secret t else s).leave ∨
          t.peek.closes = false ∧ s.pass exporter rotateSec secret t =
            (if Due rotateSec s t then s.rotate exporter secret t else s).accept t) := by
  by_cases hfail : Due rotateSec s t ∧ t.exportOk = false
  · exact Or.inl ⟨hfail.1, hfail.2, if_pos hfail⟩
  · refine Or.inr ⟨hfail, ?_⟩
    simp only [pass, if_neg hfail]
    cases hclose : t.peek.closes with
    | true => exact Or.inl ⟨rfl, by simp⟩
    | false => exact Or.inr ⟨rfl, by simp⟩

/-- A connection that is open after the accept was open before, or is new. -/
theorem accept_uconn {t : Tick} {msgs : List (KeydMsg Key)} (h : (s.accept t).uconn = some msgs) :
    s.uconn = some msgs ∨ s.uconn = none ∧ msgs = [] := by
  unfold accept at h
  split at h
  next hnew => exact Or.inr ⟨Option.isNone_iff_eq_none.mp hnew.1, (Option.some.inj h).symm⟩
  next => exact Or.inl h

/-- **What is sent.** On a connection that is open after an event, the messages of the event
follow those of before; a new connection starts with them. -/
theorem uconn_step {e : Event Secret} {msgs : List (KeydMsg Key)}
    (h : (step exporter rotateSec s e).uconn = some msgs) :
    ∃ old, (s.uconn = some old ∨ old = []) ∧ msgs = old ++ s.sent exporter rotateSec e := by
  cases e with
  | handshake secret pending helloOk =>
    cases hsession : s.session with
    | some _ =>
      simp only [step, hsession] at h
      exact ⟨msgs, Or.inl h, by simp [sent, hsession]⟩
    | none =>
      refine ⟨[], Or.inr rfl, ?_⟩
      simp only [step, hsession] at h
      cases pending with
      | false => cases h
      | true =>
        rw [← Option.some.inj h]
        cases helloOk <;> simp [sent, hsession]
  | tick t =>
    cases hsession : s.session with
    | none =>
      simp only [step, hsession] at h
      exact ⟨msgs, Or.inl h, by simp [sent, hsession]⟩
    | some secret =>
      simp only [step, hsession] at h
      rcases pass_cases exporter rotateSec secret s t with ⟨_, _, hpass⟩ | ⟨hgo, hrest⟩
      · rw [hpass] at h
        cases h
      rcases hrest with ⟨_, hpass⟩ | ⟨_, hpass⟩
      · rw [hpass] at h
        cases h
      rw [hpass] at h
      by_cases hdue : Due rotateSec s t
      · have hok : t.exportOk = true := by
          cases hexport : t.exportOk with
          | true => rfl
          | false => exact absurd ⟨hdue, hexport⟩ hgo
        rw [if_pos hdue] at h
        cases hconn : s.uconn with
        | none =>
          rcases accept_uconn h with hopen | ⟨_, rfl⟩
          · simp [rotate, hconn] at hopen
          · exact ⟨[], Or.inr rfl, by simp [sent, hsession, hconn]⟩
        | some old =>
          cases hsend : t.sendOk with
          | false =>
            rcases accept_uconn h with hopen | ⟨_, rfl⟩
            · simp [rotate, hconn, hsend] at hopen
            · exact ⟨[], Or.inr rfl, by simp [sent, hsession, hsend]⟩
          | true =>
            rcases accept_uconn h with hopen | ⟨hopen, _⟩
            · simp only [rotate, hconn, hsend, Option.bind_some, if_true, Option.some.injEq] at hopen
              exact ⟨old, Or.inl rfl, by simp [sent, hsession, hconn, hsend, hdue, hok, ← hopen]⟩
            · simp [rotate, hconn, hsend] at hopen
      · rw [if_neg hdue] at h
        have hsent : s.sent exporter rotateSec (.tick t) = [] := by simp [sent, hsession, hdue]
        rw [hsent]
        rcases accept_uconn h with hopen | ⟨_, rfl⟩
        · exact ⟨msgs, Or.inl hopen, (List.append_nil msgs).symm⟩
        · exact ⟨[], Or.inr rfl, rfl⟩
  | stop => cases h

end Keyd

end SecureWan
