import SecureWan.CryptoOp
import SecureWan.KeyAgreement.Keyd

/-!
# The session tables of two boxes

Both boxes start with the static key under epoch 0. Then each daemon exports key after key,
session after session, and sends them to its application while one is connected; the
application handles what it has been sent at its own pace. Every session counts its epochs
from 0 again, and a peer selects its session by the epoch byte alone, so two keys of different
sessions can meet under one byte.
-/

namespace SecureWan

/-- A key, with the TLS session that it was exported in; the static key comes from none. No
step looks at the session. -/
structure TracedKey (Secret Key : Type) where
  key : Key
  session : Option Secret
  deriving DecidableEq

/-- The exporter, with a note of the session. -/
def tracedExporter {Secret Key : Type} (exporter : Exporter Secret Key) :
    Exporter Secret (TracedKey Secret Key) :=
  fun secret label context => ⟨exporter secret label context, some secret⟩

/-- One box. -/
structure KeyedBox (Secret Key : Type) where
  keyd : Keyd Secret (TracedKey Secret Key)
  /-- What the daemon has sent and the application has not read. -/
  inbox : List (KeydMsg (TracedKey Secret Key))
  /-- The session table of the encryptor. -/
  cs : CsPort (TracedKey Secret Key)

variable {Secret Key : Type}

namespace KeyedBox

/-- A box after the bootstrap session install. -/
def bootstrap (staticKey : Key) : KeyedBox Secret Key :=
  ⟨.start, [], TwoSlot.init ⟨0, ⟨staticKey, none⟩⟩⟩

/-- One event of the daemon. -/
def daemon (exporter : Exporter Secret Key) (rotateSec : ℤ) (box : KeyedBox Secret Key)
    (e : Keyd.Event Secret) : KeyedBox Secret Key :=
  { box with
    keyd := box.keyd.step (tracedExporter exporter) rotateSec e
    inbox := box.inbox ++ box.keyd.sent (tracedExporter exporter) rotateSec e }

/-- `kr_install_cb` and `kr_retire_cb`, on the session table. -/
def handle (box : KeyedBox Secret Key) : KeydMsg (TracedKey Secret Key) → KeyedBox Secret Key
  | .hello => box
  | .installKey epoch key => { box with cs := csRotate box.cs key epoch }
  | .retire _ => { box with cs := box.cs.retirePrev }

/-- The application handles the next message. -/
def poll (box : KeyedBox Secret Key) : KeyedBox Secret Key :=
  match box.inbox with
  | [] => box
  | msg :: inbox => { box with inbox := inbox }.handle msg

/-- If the peer has a session for the current epoch, it has the current key. -/
def Matches (box peer : KeyedBox Secret Key) : Prop :=
  ∀ sess, csSessionForEpoch peer.cs box.cs.epochCur = some sess → sess.key.key = box.cs.cur.key.key

/-- The current and the previous entry do not share an epoch with different keys. -/
def TableConsistent (box : KeyedBox Secret Key) : Prop :=
  ∀ prev, box.cs.prev = some prev → prev.epoch = box.cs.cur.epoch →
    prev.key.key = box.cs.cur.key.key

/-- Wherever one box finds a session for the other's current epoch, it has the other's key;
and neither table holds two keys under one epoch. -/
def Paired (x y : KeyedBox Secret Key) : Prop :=
  x.Matches y ∧ y.Matches x ∧ x.TableConsistent ∧ y.TableConsistent

/-- The message that a box handles has its epoch byte for its session alone, among the entry
that it replaces and those of the peer. -/
def HasEpoch (box peer : KeyedBox Secret Key) : KeydMsg (TracedKey Secret Key) → Prop
  | .installKey epoch key =>
    ∀ sess ∈ box.cs.cur :: peer.cs.toList, sess.epoch = epoch → sess.key.session = key.session
  | _ => True

instance [DecidableEq Secret] (box peer : KeyedBox Secret Key) :
    (msg : KeydMsg (TracedKey Secret Key)) → Decidable (box.HasEpoch peer msg)
  | .installKey _ _ => inferInstanceAs (Decidable (∀ sess ∈ box.cs.cur :: peer.cs.toList, _))
  | .hello | .retire _ => .isTrue trivial

end KeyedBox

namespace TwoBoxes

/-- The two ends of the tunnel. -/
structure State (Secret Key : Type) where
  a : KeyedBox Secret Key
  b : KeyedBox Secret Key

/-- What happens on one of the two boxes, here named by `onA`. -/
inductive Event (Secret : Type) where
  /-- Something in the loop of `keyd`. -/
  | keyd (onA : Bool) (e : Keyd.Event Secret)
  /-- The application handles the next message. -/
  | poll (onA : Bool)
  /-- The overlap window ends. -/
  | retire (onA : Bool)
  /-- The application loses its connection, with what it has not read. -/
  | disconnect (onA : Bool)

/-- Both boxes after the bootstrap. -/
def start (staticKey : Key) : State Secret Key := ⟨.bootstrap staticKey, .bootstrap staticKey⟩

/-- One of the boxes. -/
def State.box (s : State Secret Key) (onA : Bool) : KeyedBox Secret Key := if onA then s.a else s.b

/-- Change one of the boxes. -/
def State.update (s : State Secret Key) (onA : Bool)
    (f : KeyedBox Secret Key → KeyedBox Secret Key) : State Secret Key :=
  if onA then { s with a := f s.a } else { s with b := f s.b }

/-- One event; each daemon has its own `rotate_sec`. -/
def step (exporter : Exporter Secret Key) (rotateSec : Bool → ℤ) (s : State Secret Key) :
    Event Secret → State Secret Key
  | .keyd onA e => s.update onA fun box => box.daemon exporter (rotateSec onA) e
  | .poll onA => s.update onA KeyedBox.poll
  | .retire onA => s.update onA fun box => { box with cs := box.cs.retirePrev }
  | .disconnect onA => s.update onA fun box => { box with inbox := [] }

/-- The two tables fit together. -/
def KeysMatch (s : State Secret Key) : Prop := s.a.Paired s.b

/-- An `INSTALL_KEY` is handled under an epoch byte that is its own: no entry in the table of
the other box has it from another session, and neither has the entry that is to be replaced. -/
def OwnEpoch (s : State Secret Key) : Event Secret → Prop
  | .poll onA => ∀ msg ∈ (s.box onA).inbox.head?, (s.box onA).HasEpoch (s.box !onA) msg
  | _ => True

instance [DecidableEq Secret] (s : State Secret Key) : (e : Event Secret) → Decidable (OwnEpoch s e)
  | .poll onA => inferInstanceAs (Decidable (∀ msg ∈ (s.box onA).inbox.head?, _))
  | .keyd _ _ | .retire _ | .disconnect _ => .isTrue trivial

/-- The secret of the handshake that the event is. -/
def Event.secret : Event Secret → Option Secret
  | .keyd _ (.handshake secret _ _) => some secret
  | _ => none

/-- The keys of some sessions, under each epoch, and the static key are different keys. -/
structure SessionsDiffer (exporter : Exporter Secret Key) (staticKey : Key)
    (secrets : List Secret) : Prop where
  exported : ∀ secret ∈ secrets, ∀ secret' ∈ secrets, ∀ epoch,
    exportTrafficKey exporter secret epoch = exportTrafficKey exporter secret' epoch →
      secret = secret'
  static : ∀ secret ∈ secrets, exportTrafficKey exporter secret 0 ≠ staticKey

variable {exporter : Exporter Secret Key} {rotateSec : Bool → ℤ} {staticKey : Key}
  {secrets : List Secret}

/-! ### Where the keys come from -/

/-- The key is the one that the session exports under the epoch, or the static one. -/
def Genuine (exporter : Exporter Secret Key) (staticKey : Key) (secrets : List Secret)
    (epoch : UInt8) (k : TracedKey Secret Key) : Prop :=
  match k.session with
  | none => epoch = 0 ∧ k.key = staticKey
  | some secret => secret ∈ secrets ∧ k.key = exportTrafficKey exporter secret epoch

/-- Under one epoch, keys are different exactly when their sessions are. -/
theorem key_eq_iff (hdiffer : SessionsDiffer exporter staticKey secrets) {epoch : UInt8}
    {k k' : TracedKey Secret Key} (h : Genuine exporter staticKey secrets epoch k)
    (h' : Genuine exporter staticKey secrets epoch k') :
    k.key = k'.key ↔ k.session = k'.session := by
  unfold Genuine at h h'
  cases hk : k.session with
  | none =>
    rw [hk] at h
    obtain ⟨rfl, hkey⟩ := h
    cases hk' : k'.session with
    | none =>
      rw [hk'] at h'
      exact iff_of_true (hkey.trans h'.2.symm) rfl
    | some secret =>
      rw [hk'] at h'
      refine iff_of_false (fun heq => ?_) (fun heq => by cases heq)
      rw [hkey, h'.2] at heq
      exact hdiffer.static secret h'.1 heq.symm
  | some secret =>
    rw [hk] at h
    cases hk' : k'.session with
    | none =>
      rw [hk'] at h'
      obtain ⟨rfl, hkey⟩ := h'
      refine iff_of_false (fun heq => ?_) (fun heq => by cases heq)
      rw [hkey, h.2] at heq
      exact hdiffer.static secret h.1 heq
    | some secret' =>
      rw [hk'] at h'
      constructor
      · intro heq
        rw [h.2, h'.2] at heq
        rw [hdiffer.exported secret h.1 secret' h'.1 epoch heq]
      · intro heq
        obtain rfl := Option.some.inj heq
        rw [h.2, h'.2]

/-- The keys of a box come from where they say. -/
structure BoxOk (exporter : Exporter Secret Key) (staticKey : Key) (secrets : List Secret)
    (box : KeyedBox Secret Key) : Prop where
  session : ∀ secret, box.keyd.session = some secret → secret ∈ secrets
  inbox : ∀ epoch key, .installKey epoch key ∈ box.inbox →
    Genuine exporter staticKey secrets epoch key
  table : ∀ sess ∈ box.cs.toList, Genuine exporter staticKey secrets sess.epoch sess.key

/-- What the daemon sends is a key of its session. -/
theorem genuine_sent {keyd : Keyd Secret (TracedKey Secret Key)} {rotateSec : ℤ}
    (h : ∀ secret, keyd.session = some secret → secret ∈ secrets) {e : Keyd.Event Secret}
    {epoch : UInt8} {key : TracedKey Secret Key}
    (hsent : .installKey epoch key ∈ keyd.sent (tracedExporter exporter) rotateSec e) :
    Genuine exporter staticKey secrets epoch key := by
  cases e with
  | handshake secret pending helloOk =>
    simp only [Keyd.sent] at hsent
    split at hsent
    · simp at hsent
    · cases hsent
  | tick t =>
    cases hsession : keyd.session with
    | none =>
      simp only [Keyd.sent, hsession] at hsent
      cases hsent
    | some secret =>
      simp only [Keyd.sent, hsession] at hsent
      split at hsent
      · obtain ⟨rfl, rfl⟩ := KeydMsg.installKey.inj (List.mem_singleton.mp hsent)
        exact ⟨h secret hsession, rfl⟩
      · cases hsent
  | stop => cases hsent

/-- The session of the daemon is the one before, or that of the handshake. -/
theorem session_step {keyd : Keyd Secret (TracedKey Secret Key)} {rotateSec : ℤ}
    {e : Keyd.Event Secret} {secret : Secret}
    (h : (keyd.step (tracedExporter exporter) rotateSec e).session = some secret) :
    keyd.session = some secret ∨ ∃ pending helloOk, e = .handshake secret pending helloOk := by
  cases e with
  | handshake secret' pending helloOk =>
    cases hsession : keyd.session with
    | none =>
      simp only [Keyd.step, hsession] at h
      obtain rfl := Option.some.inj h
      exact Or.inr ⟨pending, helloOk, rfl⟩
    | some _ =>
      simp only [Keyd.step, hsession] at h
      exact Or.inl h
  | tick t =>
    cases hsession : keyd.session with
    | none =>
      simp only [Keyd.step, hsession] at h
      cases h
    | some secret' =>
      simp only [Keyd.step, hsession] at h
      left
      rcases Keyd.pass_cases (tracedExporter exporter) rotateSec secret' keyd t with
        ⟨_, _, hpass⟩ | ⟨_, ⟨_, hpass⟩ | ⟨_, hpass⟩⟩
      · rw [hpass] at h
        cases h
      · rw [hpass] at h
        cases h
      · rw [hpass, Keyd.accept_session] at h
        split at h
        · exact hsession.symm.trans h
        · exact hsession.symm.trans h
  | stop => cases h

theorem BoxOk.daemon {box : KeyedBox Secret Key} (h : BoxOk exporter staticKey secrets box)
    {rotateSec : ℤ} {e : Keyd.Event Secret}
    (he : ∀ secret pending helloOk, e = .handshake secret pending helloOk → secret ∈ secrets) :
    BoxOk exporter staticKey secrets (box.daemon exporter rotateSec e) := by
  refine ⟨fun secret hsession => ?_, fun epoch key hmem => ?_, h.table⟩
  · rcases session_step hsession with hold | ⟨pending, helloOk, rfl⟩
    · exact h.session secret hold
    · exact he secret pending helloOk rfl
  · rcases List.mem_append.mp hmem with hold | hsent
    · exact h.inbox epoch key hold
    · exact genuine_sent h.session hsent

theorem BoxOk.retire {box : KeyedBox Secret Key} (h : BoxOk exporter staticKey secrets box) :
    BoxOk exporter staticKey secrets { box with cs := box.cs.retirePrev } := by
  refine ⟨h.session, h.inbox, fun sess hsess => h.table sess ?_⟩
  rw [TwoSlot.toList_retirePrev, List.mem_singleton] at hsess
  rw [hsess]
  exact List.mem_cons_self

/-- A message is read. -/
theorem BoxOk.rest {box : KeyedBox Secret Key} (h : BoxOk exporter staticKey secrets box)
    {msg : KeydMsg (TracedKey Secret Key)} {inbox : List (KeydMsg (TracedKey Secret Key))}
    (hinbox : box.inbox = msg :: inbox) :
    BoxOk exporter staticKey secrets { box with inbox := inbox } := by
  refine ⟨h.session, fun epoch key hmem => h.inbox epoch key ?_, h.table⟩
  rw [hinbox]
  exact List.mem_cons_of_mem msg hmem

theorem BoxOk.poll {box : KeyedBox Secret Key} (h : BoxOk exporter staticKey secrets box) :
    BoxOk exporter staticKey secrets box.poll := by
  unfold KeyedBox.poll
  split
  next => exact h
  next msg inbox hinbox =>
    have hrest := h.rest hinbox
    cases msg with
    | hello => exact hrest
    | installKey epoch key =>
      refine ⟨h.session, hrest.inbox, fun sess hsess => ?_⟩
      rcases List.mem_cons.mp hsess with rfl | hold
      · exact h.inbox epoch key (hinbox ▸ List.mem_cons_self)
      · rw [List.mem_singleton.mp hold]
        exact h.table box.cs.cur List.mem_cons_self
    | retire epoch => exact hrest.retire

/-! ### Tables that fit together -/

/-- Under one epoch, the entries have one key. -/
def Agree (x y : Session (TracedKey Secret Key)) : Prop := x.epoch = y.epoch → x.key.key = y.key.key

theorem Agree.symm {x y : Session (TracedKey Secret Key)} (h : Agree x y) : Agree y x :=
  fun heq => (h heq.symm).symm

variable {x y : KeyedBox Secret Key}

/-- A box matches a peer when its current entry agrees with each entry of the peer. -/
theorem matches_iff (h : y.TableConsistent) :
    x.Matches y ↔ ∀ sess ∈ y.cs.toList, Agree sess x.cs.cur := by
  refine TwoSlot.forall_lookup_iff fun prev hprev hepoch hcur => ?_
  exact (h prev hprev hepoch).trans hcur

/-- **Installing a key.** A new entry keeps the tables together exactly when it agrees with the
entry that it replaces and with those of the peer. -/
theorem paired_install_iff (h : x.Paired y) (epoch : UInt8) (key : TracedKey Secret Key) :
    KeyedBox.Paired { x with cs := csRotate x.cs key epoch } y ↔
      ∀ sess ∈ x.cs.cur :: y.cs.toList, Agree sess ⟨epoch, key⟩ := by
  obtain ⟨_, hyx, hx, hy⟩ := h
  rw [List.forall_mem_cons]
  constructor
  · rintro ⟨hxy', _, hx', _⟩
    exact ⟨hx' x.cs.cur rfl, (matches_iff hy).mp hxy'⟩
  · rintro ⟨hreplaced, hpeer⟩
    have hx' : KeyedBox.TableConsistent { x with cs := csRotate x.cs key epoch } := by
      intro prev hprev
      obtain rfl := Option.some.inj hprev
      exact hreplaced
    refine ⟨(matches_iff hy).mpr hpeer, (matches_iff hx').mpr fun sess hsess => ?_, hx', hy⟩
    rcases List.mem_cons.mp hsess with rfl | hold
    · exact (hpeer y.cs.cur List.mem_cons_self).symm
    · rw [List.mem_singleton.mp hold]
      exact (matches_iff hx).mp hyx x.cs.cur List.mem_cons_self

/-- The end of the overlap window keeps the tables together. -/
theorem paired_retire (h : x.Paired y) :
    KeyedBox.Paired { x with cs := x.cs.retirePrev } y := by
  obtain ⟨hxy, hyx, hx, hy⟩ := h
  have hx' : KeyedBox.TableConsistent { x with cs := x.cs.retirePrev } := by
    intro prev hprev
    cases hprev
  refine ⟨hxy, (matches_iff hx').mpr fun sess hsess => ?_, hx', hy⟩
  rw [List.mem_singleton.mp hsess]
  exact (matches_iff hx).mp hyx x.cs.cur List.mem_cons_self

/-- **Handling a message.** -/
theorem paired_handle_iff (hdiffer : SessionsDiffer exporter staticKey secrets)
    (hx : BoxOk exporter staticKey secrets x) (hy : BoxOk exporter staticKey secrets y)
    (h : x.Paired y) {msg : KeydMsg (TracedKey Secret Key)}
    (hmsg : ∀ epoch key, msg = .installKey epoch key →
      Genuine exporter staticKey secrets epoch key) :
    (x.handle msg).Paired y ↔ x.HasEpoch y msg := by
  cases msg with
  | hello => exact iff_of_true h trivial
  | installKey epoch key =>
    have hkey := hmsg epoch key rfl
    have hentries : ∀ sess ∈ x.cs.cur :: y.cs.toList,
        Genuine exporter staticKey secrets sess.epoch sess.key :=
      List.forall_mem_cons.mpr ⟨hx.table x.cs.cur List.mem_cons_self, hy.table⟩
    refine (paired_install_iff h epoch key).trans ?_
    constructor
    · rintro hagree sess hsess rfl
      exact (key_eq_iff hdiffer (hentries sess hsess) hkey).mp (hagree sess hsess rfl)
    · rintro hown sess hsess rfl
      exact (key_eq_iff hdiffer (hentries sess hsess) hkey).mpr (hown sess hsess rfl)
  | retire epoch => exact iff_of_true (paired_retire h) trivial

/-- The box that handles the next message. -/
theorem paired_poll_iff (hdiffer : SessionsDiffer exporter staticKey secrets)
    (hx : BoxOk exporter staticKey secrets x) (hy : BoxOk exporter staticKey secrets y)
    (h : x.Paired y) : x.poll.Paired y ↔ ∀ msg ∈ x.inbox.head?, x.HasEpoch y msg := by
  unfold KeyedBox.poll
  split
  next hempty =>
    rw [hempty]
    exact iff_of_true h fun msg hmsg => by cases hmsg
  next msg inbox hinbox =>
    have hrest : BoxOk exporter staticKey secrets { x with inbox := inbox } :=
      hx.rest hinbox
    rw [hinbox, paired_handle_iff hdiffer hrest hy h fun epoch key heq =>
      hx.inbox epoch key (by rw [hinbox, heq]; exact List.mem_cons_self)]
    simp only [List.head?_cons, Option.mem_some_iff, forall_eq']
    cases msg <;> exact Iff.rfl

/-! ### Runs -/

theorem KeyedBox.Paired.symm (h : x.Paired y) : y.Paired x := ⟨h.2.1, h.1, h.2.2.2, h.2.2.1⟩

/-- The tables fit together, seen from either box. -/
theorem keysMatch_iff_box (s : State Secret Key) (onA : Bool) :
    KeysMatch s ↔ (s.box onA).Paired (s.box !onA) := by
  cases onA with
  | true => exact Iff.rfl
  | false => exact ⟨KeyedBox.Paired.symm, KeyedBox.Paired.symm⟩

/-- A change of one box, seen from it. -/
theorem keysMatch_update_iff (s : State Secret Key) (onA : Bool)
    (f : KeyedBox Secret Key → KeyedBox Secret Key) :
    KeysMatch (s.update onA f) ↔ (f (s.box onA)).Paired (s.box !onA) := by
  rw [keysMatch_iff_box (s.update onA f) onA]
  cases onA <;> exact Iff.rfl

/-- The keys of both boxes come from where they say. -/
def KeysGenuine (exporter : Exporter Secret Key) (staticKey : Key) (secrets : List Secret)
    (s : State Secret Key) : Prop :=
  ∀ onA, BoxOk exporter staticKey secrets (s.box onA)

theorem KeysGenuine.update {s : State Secret Key}
    (h : KeysGenuine exporter staticKey secrets s) (onA : Bool)
    {f : KeyedBox Secret Key → KeyedBox Secret Key}
    (hf : BoxOk exporter staticKey secrets (f (s.box onA))) :
    KeysGenuine exporter staticKey secrets (s.update onA f) := by
  intro onA'
  cases onA <;> cases onA'
  · exact hf
  · exact h true
  · exact h false
  · exact hf

/-- **Step lemma.** Where the keys come from is kept by every event. -/
theorem keysGenuine_step (s : State Secret Key) (e : Event Secret)
    (he : ∀ secret, e.secret = some secret → secret ∈ secrets)
    (h : KeysGenuine exporter staticKey secrets s) :
    KeysGenuine exporter staticKey secrets (step exporter rotateSec s e) := by
  cases e with
  | keyd onA e =>
    refine h.update onA ((h onA).daemon fun secret pending helloOk heq => ?_)
    subst heq
    exact he secret rfl
  | poll onA => exact h.update onA (h onA).poll
  | retire onA => exact h.update onA (h onA).retire
  | disconnect onA =>
    refine h.update onA ⟨(h onA).session, fun epoch key hmem => ?_, (h onA).table⟩
    cases hmem

/-- **Step lemma.** An event keeps the tables together exactly when a key that it installs has
its epoch to its own session. -/
theorem keysMatch_step_iff (hdiffer : SessionsDiffer exporter staticKey secrets)
    (s : State Secret Key) (e : Event Secret) (hinv : KeysGenuine exporter staticKey secrets s)
    (hs : KeysMatch s) : KeysMatch (step exporter rotateSec s e) ↔ OwnEpoch s e := by
  cases e with
  | keyd onA e =>
    refine iff_of_true ?_ trivial
    rw [step, keysMatch_update_iff]
    exact (keysMatch_iff_box s onA).mp hs
  | poll onA =>
    rw [step, keysMatch_update_iff]
    exact paired_poll_iff hdiffer (hinv onA) (hinv !onA) ((keysMatch_iff_box s onA).mp hs)
  | retire onA =>
    refine iff_of_true ?_ trivial
    rw [step, keysMatch_update_iff]
    exact paired_retire ((keysMatch_iff_box s onA).mp hs)
  | disconnect onA =>
    refine iff_of_true ?_ trivial
    rw [step, keysMatch_update_iff]
    exact (keysMatch_iff_box s onA).mp hs

theorem keysGenuine_start (secrets : List Secret) :
    KeysGenuine exporter staticKey secrets (start staticKey) := by
  have hbox : BoxOk exporter staticKey secrets (.bootstrap staticKey) := by
    refine ⟨fun secret hsession => ?_, fun epoch key hmem => ?_, fun sess hsess => ?_⟩
    · cases hsession
    · cases hmem
    · rw [List.mem_singleton.mp hsess]
      exact ⟨rfl, rfl⟩
  intro onA
  cases onA <;> exact hbox

/-- Two boxes with the bootstrap tables match. -/
theorem keysMatch_start (staticKey : Key) : KeysMatch (start staticKey : State Secret Key) := by
  have hconsistent : (KeyedBox.bootstrap staticKey : KeyedBox Secret Key).TableConsistent := by
    intro prev hprev
    cases hprev
  have hmatches : (KeyedBox.bootstrap staticKey : KeyedBox Secret Key).Matches
      (.bootstrap staticKey) := by
    rw [matches_iff hconsistent]
    intro sess hsess
    rw [List.mem_singleton.mp hsess]
    exact fun _ => rfl
  exact ⟨hmatches, hmatches, hconsistent, hconsistent⟩

/-- **Matching keys.** Let the sessions of a run export different keys, none of them the static
one. Then the two boxes match at every moment, whatever messages are lost, handled late or out
of step, exactly when each key is installed under an epoch byte that is its session's own: no
entry of the peer's table has it from another session, and neither has the current entry. -/
theorem keysMatch_iff (exporter : Exporter Secret Key) (rotateSec : Bool → ℤ) (staticKey : Key)
    (es : List (Event Secret))
    (hdiffer : SessionsDiffer exporter staticKey (es.filterMap Event.secret)) :
    Runs.Throughout (step exporter rotateSec) KeysMatch (start staticKey) es ↔
      Runs.StepsMeet (step exporter rotateSec) OwnEpoch (start staticKey) es := by
  have hes : ∀ e ∈ es, ∀ secret, e.secret = some secret → secret ∈ es.filterMap Event.secret :=
    fun e he secret hsecret => List.mem_filterMap.mpr ⟨e, he, hsecret⟩
  exact Runs.throughout_iff_stepsMeet_of_forall
    (fun s e he hinv _ _ => keysGenuine_step s e he hinv)
    (fun s e _ => keysMatch_step_iff hdiffer s e) (keysGenuine_start _) (keysMatch_start staticKey)
    hes

/-- An exporter of keys of two bytes: that of the session, and the epoch. -/
def shortExporter : Exporter UInt8 (UInt8 × UInt8) := fun secret _ context =>
  (secret, context.headD 0)

/-- A pass of the rotation loop at some time, in which an application may wait. -/
def tickAt (now : ℤ) (pending : Bool) : Keyd.Event UInt8 :=
  .tick ⟨now, true, true, .wantRead, pending⟩

/-- Both boxes rotate to epoch 1 of a first session and, after the peer has closed it, to epoch
2 of a second one. The keys before these are exported while no application is connected. -/
def lateApplications : List (Event UInt8) :=
  [.keyd true (.handshake 1 false false), .keyd false (.handshake 1 false false),
    .keyd true (tickAt 120 true), .keyd false (tickAt 130 true),
    .keyd true (tickAt 240 false), .keyd false (tickAt 250 false), .poll true, .poll false,
    .keyd true (.tick ⟨251, true, true, .zeroReturn, false⟩),
    .keyd false (.tick ⟨251, true, true, .zeroReturn, false⟩),
    .keyd true (.handshake 2 false false), .keyd false (.handshake 2 false false),
    .keyd true (tickAt 300 false), .keyd false (tickAt 300 false),
    .keyd true (tickAt 420 true), .keyd false (tickAt 420 true),
    .keyd true (tickAt 540 false), .poll true, .retire true, .keyd false (tickAt 540 false),
    .poll false]

/-- The boxes match throughout, also while only one of them has the next key. -/
theorem keysMatch_lateApplications :
    Runs.Throughout (step shortExporter fun _ => 120) KeysMatch (start (0, 0)) lateApplications := by
  refine (keysMatch_iff shortExporter (fun _ => 120) (0, 0) lateApplications ⟨?_, ?_⟩).mpr
    (by decide)
  · intro secret _ secret' _ epoch heq
    exact (Prod.mk.inj heq).1
  · decide +kernel

/-- The first key of a session is installed on one box under epoch 0, where the other one has
the static key. -/
theorem keysMatch_broken :
    ¬Runs.Throughout (step shortExporter fun _ => 120) KeysMatch (start (0, 0))
      [.keyd true (.handshake 1 true true), .keyd true (tickAt 120 false), .poll true,
        .poll true] := by
  intro h
  have hafter := Runs.throughout_iff.mp h _ (List.prefix_refl _)
  have hkey := hafter.1 ⟨0, ⟨(0, 0), none⟩⟩ (by decide)
  exact absurd hkey (by decide)

end TwoBoxes

end SecureWan
