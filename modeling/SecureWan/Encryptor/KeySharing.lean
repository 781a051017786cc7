import Mathlib.Data.List.Induction
import Mathlib.Logic.Function.Basic
import SecureWan.CryptoOp
import SecureWan.KeyAgreement.Keyd

/-!
# Key sharing between the lcores

All lcores poll the one connection to the key daemon, so each message reaches one
of them. The lcore that receives a key stores it in a shared variable with a
sequence number, and the others catch up in their own drain iterations. Two things
stop an lcore from catching up: an epoch byte equal to the mark for "no key yet",
and a message of its own that it receives first.
-/

namespace SecureWan

variable {Key : Type}

/-- `g_shared_key`, `g_shared_epoch` and `g_shared_seq`. -/
structure SharedKey (Key : Type) where
  key : Key
  epoch : UInt8
  seq : UInt32

/-- The session for the shared key. -/
def SharedKey.session (shared : SharedKey Key) : Session Key := ⟨shared.epoch, shared.key⟩

/-- `0xFF`: no key is shared yet. -/
def noSharedEpoch : UInt8 := 0xFF

/-- The key variables of one lcore: the parameters of its devices, and the sequence
number that it applied last. -/
structure Lcore (Key : Type) where
  portCparams : List (CryptoParams Key)
  appliedSeq : UInt32

namespace Lcore

/-- Rotate every cipher device of the lcore. -/
def rotate (lcore : Lcore Key) (epoch : UInt8) (key : Key) : Lcore Key :=
  { lcore with portCparams := lcore.portCparams.map fun cp => cp.installKey epoch key }

/-- `kr_install_cb`: share the key, then rotate. -/
def krInstallCb (shared : SharedKey Key) (lcore : Lcore Key) (epoch : UInt8) (key : Key) :
    SharedKey Key × Lcore Key :=
  (⟨key, epoch, shared.seq + 1⟩, lcore.rotate epoch key)

/-- `kr_retire_cb`: forget the previous session of every cipher device. -/
def krRetireCb (lcore : Lcore Key) : Lcore Key :=
  { lcore with
    portCparams := lcore.portCparams.map fun cp =>
      if cp.chain.doCipher then { cp with cs := cp.cs.retirePrev } else cp }

/-- One message of the daemon, dispatched by `kl_poll`. -/
def handle (s : SharedKey Key × Lcore Key) : KeydMsg Key → SharedKey Key × Lcore Key
  | .hello => s
  | .installKey epoch key => krInstallCb s.1 s.2 epoch key
  | .retire _ => (s.1, s.2.krRetireCb)

/-- `kl_poll`, on the messages that have arrived for this lcore. -/
def klPoll (s : SharedKey Key × Lcore Key) (msgs : List (KeydMsg Key)) :
    SharedKey Key × Lcore Key :=
  msgs.foldl handle s

/-- The shared key is one this lcore has yet to apply. -/
def Behind (shared : SharedKey Key) (lcore : Lcore Key) : Prop :=
  shared.epoch ≠ noSharedEpoch ∧ shared.seq ≠ lcore.appliedSeq

instance (shared : SharedKey Key) (lcore : Lcore Key) : Decidable (Behind shared lcore) :=
  inferInstanceAs (Decidable (_ ∧ _))

/-- The lcore takes note of the sequence number if its poll handled a message. -/
def noteSeq (shared : SharedKey Key) (msgs : List (KeydMsg Key)) (lcore : Lcore Key) : Lcore Key :=
  if msgs = [] then lcore else { lcore with appliedSeq := shared.seq }

/-- Apply the shared key, if it is a new one. -/
def catchUp (shared : SharedKey Key) (lcore : Lcore Key) : Lcore Key :=
  if Behind shared lcore then
    { lcore.rotate shared.epoch shared.key with appliedSeq := shared.seq }
  else lcore

/-- One drain iteration: poll, then see whether another lcore got a key. -/
def drain (s : SharedKey Key × Lcore Key) (msgs : List (KeydMsg Key)) :
    SharedKey Key × Lcore Key :=
  let polled := klPoll s msgs
  (polled.1, catchUp polled.1 (noteSeq polled.1 msgs polled.2))

/-- The session is the current one, and the one in use, on every cipher device. -/
def OnSession (sess : Session Key) (lcore : Lcore Key) : Prop :=
  ∀ cp ∈ lcore.portCparams, cp.chain.doCipher = true → cp.cs.cur = sess ∧ cp.session = sess

instance [DecidableEq Key] (sess : Session Key) (lcore : Lcore Key) :
    Decidable (OnSession sess lcore) :=
  inferInstanceAs (Decidable (∀ cp ∈ lcore.portCparams, _))

/-- The key that the messages install last, with its epoch. -/
def lastInstalled (msgs : List (KeydMsg Key)) : Option (UInt8 × Key) :=
  (msgs.filterMap KeydMsg.installed).getLast?

variable {shared : SharedKey Key} {lcore : Lcore Key} {msgs : List (KeydMsg Key)}
  {sess : Session Key} {epoch : UInt8} {key : Key}

/-- After a rotation the lcore is on the new key. -/
theorem onSession_rotate (lcore : Lcore Key) (epoch : UInt8) (key : Key) :
    OnSession ⟨epoch, key⟩ (lcore.rotate epoch key) := by
  intro cp hcp hcipher
  obtain ⟨cp', _, rfl⟩ := List.mem_map.mp hcp
  by_cases h : cp'.chain.doCipher = true
  · simp only [CryptoParams.installKey, if_pos h, csRotate_cur, and_self]
  · rw [CryptoParams.installKey, if_neg h] at hcipher
    exact absurd hcipher h

/-- Retiring the previous sessions does not touch the current ones. -/
theorem onSession_krRetireCb : OnSession sess lcore.krRetireCb ↔ OnSession sess lcore := by
  unfold OnSession krRetireCb
  rw [List.forall_mem_map]
  refine forall₂_congr fun cp _ => ?_
  by_cases h : cp.chain.doCipher = true
  · rw [if_pos h]
    rfl
  · rw [if_neg h]

/-- The sequence number does not matter for the session in use. -/
theorem onSession_noteSeq :
    OnSession sess (noteSeq shared msgs lcore) ↔ OnSession sess lcore := by
  unfold noteSeq
  split <;> rfl

/-- A poll that installs no key leaves the shared key and the sessions alone. -/
theorem klPoll_of_none (sess : Session Key) (h : lastInstalled msgs = none)
    (s : SharedKey Key × Lcore Key) :
    (klPoll s msgs).1 = s.1 ∧ (klPoll s msgs).2.appliedSeq = s.2.appliedSeq ∧
      (OnSession sess (klPoll s msgs).2 ↔ OnSession sess s.2) := by
  induction msgs generalizing s with
  | nil => exact ⟨rfl, rfl, Iff.rfl⟩
  | cons msg msgs ih =>
    have hnil := List.getLast?_eq_none_iff.mp h
    cases msg with
    | hello => exact ih (by simpa [lastInstalled, KeydMsg.installed] using hnil) s
    | installKey e k => simp [KeydMsg.installed] at hnil
    | retire e =>
      obtain ⟨hshared, hseq, hon⟩ := ih
        (by simpa [lastInstalled, KeydMsg.installed] using hnil) (s.1, s.2.krRetireCb)
      exact ⟨hshared, hseq, hon.trans onSession_krRetireCb⟩

/-- A poll that installs keys shares the last one and puts the lcore on it. -/
theorem klPoll_of_some (h : lastInstalled msgs = some (epoch, key))
    (s : SharedKey Key × Lcore Key) :
    (klPoll s msgs).1.session = ⟨epoch, key⟩ ∧ OnSession ⟨epoch, key⟩ (klPoll s msgs).2 := by
  induction msgs using List.reverseRecOn with
  | nil => cases h
  | append_singleton msgs msg ih =>
    have happend : klPoll s (msgs ++ [msg]) = handle (klPoll s msgs) msg := List.foldl_append
    rw [lastInstalled, List.filterMap_append] at h
    rw [happend]
    cases msg with
    | hello => exact ih (by simpa [lastInstalled, KeydMsg.installed] using h)
    | installKey e k =>
      have heq : (e, k) = (epoch, key) := by simpa [KeydMsg.installed] using h
      obtain ⟨rfl, rfl⟩ := Prod.mk.inj heq
      exact ⟨rfl, onSession_rotate _ _ _⟩
    | retire e =>
      obtain ⟨hshared, hon⟩ := ih (by simpa [lastInstalled, KeydMsg.installed] using h)
      exact ⟨hshared, onSession_krRetireCb.mpr hon⟩

/-- An lcore that has caught up is not behind. -/
theorem not_behind_catchUp (shared : SharedKey Key) (lcore : Lcore Key) :
    ¬Behind shared (catchUp shared lcore) := by
  by_cases h : Behind shared lcore
  · rw [catchUp, if_pos h]
    exact fun hbehind => hbehind.2 rfl
  · rwa [catchUp, if_neg h]

/-- Catching up puts an lcore on the shared key if it was behind, and does nothing
otherwise. -/
theorem onSession_catchUp :
    OnSession shared.session (catchUp shared lcore) ↔
      OnSession shared.session lcore ∨ Behind shared lcore := by
  by_cases h : Behind shared lcore
  · rw [catchUp, if_pos h]
    exact iff_of_true (onSession_rotate lcore shared.epoch shared.key) (Or.inr h)
  · rw [catchUp, if_neg h]
    exact ⟨Or.inl, fun hor => hor.resolve_right h⟩

/-- An lcore that has taken note of a message is not behind. -/
theorem behind_noteSeq :
    Behind shared (noteSeq shared msgs lcore) ↔ msgs = [] ∧ Behind shared lcore := by
  by_cases h : msgs = []
  · rw [noteSeq, if_pos h]
    exact ⟨fun hbehind => ⟨h, hbehind⟩, And.right⟩
  · rw [noteSeq, if_neg h]
    exact iff_of_false (fun hbehind => hbehind.2 rfl) (fun hand => h hand.1)

/-- **Drain without a key.** The lcore is on the shared key afterwards exactly when
it was before, or it was behind and received no message at all. -/
theorem drain_of_none (h : lastInstalled msgs = none) (shared : SharedKey Key)
    (lcore : Lcore Key) :
    (drain (shared, lcore) msgs).1 = shared ∧
      (OnSession shared.session (drain (shared, lcore) msgs).2 ↔
        OnSession shared.session lcore ∨ msgs = [] ∧ Behind shared lcore) := by
  obtain ⟨hshared, hseq, hon⟩ := klPoll_of_none shared.session h (shared, lcore)
  refine ⟨hshared, ?_⟩
  have hbehind : Behind shared (klPoll (shared, lcore) msgs).2 ↔ Behind shared lcore := by
    rw [Behind, hseq, Behind]
  simp only [drain, hshared, onSession_catchUp, onSession_noteSeq, behind_noteSeq, hon, hbehind]

/-- **Drain with a key.** The lcore and the shared variable have the last key received. -/
theorem drain_of_some (h : lastInstalled msgs = some (epoch, key))
    (s : SharedKey Key × Lcore Key) :
    (drain s msgs).1.session = ⟨epoch, key⟩ ∧ OnSession ⟨epoch, key⟩ (drain s msgs).2 := by
  obtain ⟨hshared, hon⟩ := klPoll_of_some h s
  refine ⟨hshared, ?_⟩
  rw [← hshared]
  exact onSession_catchUp.mpr (Or.inl (onSession_noteSeq.mpr (hshared ▸ hon)))

end Lcore

namespace KeySharing

open Lcore

variable {ι : Type} [DecidableEq ι]

/-- The shared variable and the lcores. -/
structure State (ι Key : Type) where
  shared : SharedKey Key
  lcores : ι → Lcore Key

/-- One drain iteration: the lcore that runs it and the messages it receives. -/
abbrev Event (ι Key : Type) := ι × List (KeydMsg Key)

/-- Every lcore after its setup; the shared key is still zero. -/
def start (zeroKey : Key) (portCparams : ι → List (CryptoParams Key)) : State ι Key :=
  ⟨⟨zeroKey, noSharedEpoch, 0⟩, fun l => ⟨portCparams l, 0⟩⟩

/-- One drain iteration of one lcore. -/
def step (s : State ι Key) (e : Event ι Key) : State ι Key :=
  let drained := drain (s.shared, s.lcores e.1) e.2
  ⟨drained.1, Function.update s.lcores e.1 drained.2⟩

/-- The messages that an lcore receives in its first drain iteration of a run. -/
def firstBatch (l : ι) (es : List (Event ι Key)) : Option (List (KeydMsg Key)) :=
  (es.find? fun e => e.1 = l).map Prod.snd

/-- The event installs no key. -/
def NoInstall (e : Event ι Key) : Prop := lastInstalled e.2 = none

/-- **Step lemma.** An event that installs no key leaves the shared key as it is, and
its lcore is not behind afterwards. -/
theorem step_of_noInstall {e : Event ι Key} (he : NoInstall e) (s : State ι Key) :
    (step s e).shared = s.shared ∧ ¬Behind s.shared ((step s e).lcores e.1) ∧
      (OnSession s.shared.session ((step s e).lcores e.1) ↔
        OnSession s.shared.session (s.lcores e.1) ∨
          e.2 = [] ∧ Behind s.shared (s.lcores e.1)) := by
  obtain ⟨hshared, hon⟩ := drain_of_none he s.shared (s.lcores e.1)
  refine ⟨hshared, ?_, ?_⟩
  · have hpoll : (klPoll (s.shared, s.lcores e.1) e.2).1 = s.shared := hshared
    simp only [step, Function.update_self, drain, hpoll]
    exact not_behind_catchUp _ _
  · simpa only [step, Function.update_self] using hon

/-- **Run lemma.** After events that install no key, an lcore is on the shared key
exactly when it was before, or it was behind and its first drain iteration received
no message. -/
theorem onSession_run_iff {es : List (Event ι Key)} (hes : ∀ e ∈ es, NoInstall e)
    (s : State ι Key) (l : ι) :
    OnSession s.shared.session ((Runs.run step s es).lcores l) ↔
      OnSession s.shared.session (s.lcores l) ∨
        firstBatch l es = some [] ∧ Behind s.shared (s.lcores l) := by
  induction es generalizing s with
  | nil => simp [firstBatch]
  | cons e es ih =>
    obtain ⟨hshared, hsettled, hon⟩ := step_of_noInstall (hes e List.mem_cons_self) s
    have hrun := ih (fun f hf => hes f (List.mem_cons_of_mem e hf)) (step s e)
    rw [hshared] at hrun
    rw [Runs.run_cons, hrun]
    by_cases hl : e.1 = l
    · subst hl
      have hfirst : firstBatch e.1 (e :: es) = some e.2 := by simp [firstBatch]
      rw [hon, hfirst, Option.some.injEq]
      exact ⟨fun hor => hor.resolve_right fun hand => hsettled hand.2, Or.inl⟩
    · have hother : (step s e).lcores l = s.lcores l := Function.update_of_ne (Ne.symm hl) _ _
      have hfirst : firstBatch l (e :: es) = firstBatch l es := by simp [firstBatch, hl]
      rw [hother, hfirst]

/-- **Shared keys.** Let lcore `w` receive the last key of a run. In the end all lcores
are on it exactly when each lcore, in the state right after that drain iteration, has it
already, or has not applied the shared sequence number and receives no message in its next
drain iteration, the epoch not being the mark `0xFF`. -/
theorem allOnLastKey_iff (zeroKey : Key) (portCparams : ι → List (CryptoParams Key))
    (pre post : List (Event ι Key)) (w : ι) {msgs : List (KeydMsg Key)} {epoch : UInt8} {key : Key}
    (hlast : lastInstalled msgs = some (epoch, key)) (hpost : ∀ e ∈ post, NoInstall e) :
    (∀ l, OnSession ⟨epoch, key⟩
        ((Runs.run step (start zeroKey portCparams) (pre ++ (w, msgs) :: post)).lcores l)) ↔
      ∀ l, l ≠ w →
        let received := step (Runs.run step (start zeroKey portCparams) pre) (w, msgs)
        OnSession ⟨epoch, key⟩ (received.lcores l) ∨
          epoch ≠ noSharedEpoch ∧ received.shared.seq ≠ (received.lcores l).appliedSeq ∧
            firstBatch l post = some [] := by
  rw [Runs.run_append, Runs.run_cons]
  generalize Runs.run step (start zeroKey portCparams) pre = s
  obtain ⟨hshared, hw⟩ := drain_of_some hlast (s.shared, s.lcores w)
  have hsession : (step s (w, msgs)).shared.session = ⟨epoch, key⟩ := hshared
  have hepoch : (step s (w, msgs)).shared.epoch = epoch := congrArg Session.epoch hsession
  have hrun := onSession_run_iff hpost (step s (w, msgs))
  rw [hsession] at hrun
  simp only [hrun, Behind, hepoch]
  constructor
  · intro h l _
    rcases h l with hon | ⟨hbatch, hmark, hseq⟩
    · exact Or.inl hon
    · exact Or.inr ⟨hmark, hseq, hbatch⟩
  · intro h l
    by_cases hl : l = w
    · subst hl
      refine Or.inl ?_
      simpa only [step, Function.update_self] using hw
    · rcases h l hl with hon | ⟨hmark, hseq, hbatch⟩
      · exact Or.inl hon
      · exact Or.inr ⟨hbatch, hmark, hseq⟩

/-- The number of keys that a batch of messages installs. -/
def installCount (msgs : List (KeydMsg Key)) : ℕ := (msgs.filterMap KeydMsg.installed).length

/-- A poll counts the keys that it installs. -/
theorem klPoll_seq (s : SharedKey Key × Lcore Key) (msgs : List (KeydMsg Key)) :
    (klPoll s msgs).1.seq = s.1.seq + UInt32.ofNat (installCount msgs) ∧
      (klPoll s msgs).2.appliedSeq = s.2.appliedSeq := by
  induction msgs generalizing s with
  | nil => exact ⟨by simp [klPoll, installCount], rfl⟩
  | cons msg msgs ih =>
    obtain ⟨hseq, happlied⟩ := ih (handle s msg)
    cases msg with
    | hello => exact ⟨hseq, happlied⟩
    | installKey epoch key =>
      refine ⟨hseq.trans ?_, happlied⟩
      have hcount : installCount (.installKey epoch key :: msgs) = installCount msgs + 1 := rfl
      rw [hcount, UInt32.ofNat_add, UInt32.add_comm (UInt32.ofNat _), ← UInt32.add_assoc]
      rfl
    | retire epoch => exact ⟨hseq, happlied⟩

/-- After a drain iteration an lcore has applied the shared number or the one it had. -/
theorem drain_appliedSeq (s : SharedKey Key × Lcore Key) (msgs : List (KeydMsg Key)) :
    (drain s msgs).2.appliedSeq = (drain s msgs).1.seq ∨
      (drain s msgs).2.appliedSeq = s.2.appliedSeq := by
  obtain ⟨-, happlied⟩ := klPoll_seq s msgs
  let noted := noteSeq (klPoll s msgs).1 msgs (klPoll s msgs).2
  have hnoted : noted.appliedSeq = (klPoll s msgs).1.seq ∨ noted.appliedSeq = s.2.appliedSeq := by
    by_cases hnil : msgs = []
    · exact Or.inr (by simp only [noted, noteSeq, if_pos hnil, happlied])
    · exact Or.inl (by simp only [noted, noteSeq, if_neg hnil])
  change (catchUp (klPoll s msgs).1 noted).appliedSeq = (klPoll s msgs).1.seq ∨
    (catchUp (klPoll s msgs).1 noted).appliedSeq = s.2.appliedSeq
  by_cases hbehind : Behind (klPoll s msgs).1 noted
  · exact Or.inl (by simp only [catchUp, if_pos hbehind])
  · rwa [catchUp, if_neg hbehind]

/-- The keys that a run installs. -/
def totalInstalls (es : List (Event ι Key)) : ℕ := (es.map fun e => installCount e.2).sum

/-- The sequence number counts the keys of the run, and every lcore has applied an
earlier count. -/
theorem seq_run (zeroKey : Key) (portCparams : ι → List (CryptoParams Key))
    (es : List (Event ι Key)) :
    let s := Runs.run step (start zeroKey portCparams) es
    s.shared.seq = UInt32.ofNat (totalInstalls es) ∧
      ∀ l, ∃ k, k ≤ totalInstalls es ∧ (s.lcores l).appliedSeq = UInt32.ofNat k := by
  induction es using List.reverseRecOn with
  | nil => exact ⟨rfl, fun l => ⟨0, Nat.le_refl _, rfl⟩⟩
  | append_singleton es e ih =>
    obtain ⟨hseq, happlied⟩ := ih
    rw [Runs.run_append, Runs.run_cons, Runs.run_nil]
    generalize Runs.run step (start zeroKey portCparams) es = s at hseq happlied
    have htotal : totalInstalls (es ++ [e]) = totalInstalls es + installCount e.2 := by
      simp [totalInstalls]
    obtain ⟨hpollSeq, hpollApplied⟩ := klPoll_seq (s.shared, s.lcores e.1) e.2
    have hshared : (step s e).shared.seq = UInt32.ofNat (totalInstalls (es ++ [e])) := by
      rw [htotal, UInt32.ofNat_add, ← hseq]
      exact hpollSeq
    refine ⟨hshared, fun l => ?_⟩
    obtain ⟨k, hk, hold⟩ := happlied l
    by_cases hl : e.1 = l
    · subst hl
      have hnew : ((step s e).lcores e.1) = (drain (s.shared, s.lcores e.1) e.2).2 :=
        Function.update_self _ _ _
      rw [hnew]
      rcases drain_appliedSeq (s.shared, s.lcores e.1) e.2 with hnoted | hkept
      · exact ⟨totalInstalls (es ++ [e]), Nat.le_refl _, hnoted.trans hshared⟩
      · exact ⟨k, by omega, hkept.trans hold⟩
    · have hother : (step s e).lcores l = s.lcores l := Function.update_of_ne (Ne.symm hl) _ _
      exact ⟨k, by omega, by rw [hother, hold]⟩

/-- In a run that has installed fewer than `2 ^ 32` keys, no other lcore has applied the
sequence number of the key received last. -/
theorem seq_ne_appliedSeq (zeroKey : Key) (portCparams : ι → List (CryptoParams Key))
    (pre : List (Event ι Key)) (w : ι) {msgs : List (KeydMsg Key)} {epoch : UInt8} {key : Key}
    (hlast : lastInstalled msgs = some (epoch, key))
    (hfew : totalInstalls (pre ++ [(w, msgs)]) < 2 ^ 32) {l : ι} (hl : l ≠ w) :
    let received := step (Runs.run step (start zeroKey portCparams) pre) (w, msgs)
    received.shared.seq ≠ (received.lcores l).appliedSeq := by
  have hpos : 0 < installCount msgs :=
    List.length_pos_of_mem (List.mem_of_getLast? hlast)
  have htotal : totalInstalls (pre ++ [(w, msgs)]) = totalInstalls pre + installCount msgs := by
    simp [totalInstalls]
  obtain ⟨hseq, -⟩ := seq_run zeroKey portCparams (pre ++ [(w, msgs)])
  obtain ⟨-, happlied⟩ := seq_run zeroKey portCparams pre
  obtain ⟨k, hk, hold⟩ := happlied l
  have hle : k ≤ totalInstalls (pre ++ [(w, msgs)]) := by omega
  intro received hsame
  have hother : received.lcores l = (Runs.run step (start zeroKey portCparams) pre).lcores l :=
    Function.update_of_ne hl _ _
  rw [Runs.run_append, Runs.run_cons, Runs.run_nil] at hseq
  rw [hother, hold] at hsame
  have hnat := congrArg UInt32.toNat (hseq.symm.trans hsame)
  rw [UInt32.toNat_ofNat_of_lt' hfew,
    UInt32.toNat_ofNat_of_lt' (Nat.lt_of_le_of_lt hle hfew)] at hnat
  omega

/-- Two lcores, one per port: lcore `true` encrypts and lcore `false` decrypts. -/
def onePortEach (l : Bool) : List (CryptoParams Bytes) := [aesCbcBox l]

/-- A key of the daemon. -/
def daemonKey : Bytes := List.replicate 16 1

/-- The decrypting lcore follows when the encrypting one receives the key for epoch 1. -/
theorem allOnLastKey_twoLcores : OnSession ⟨1, daemonKey⟩
    ((Runs.run step (start [] onePortEach)
      [(true, [.hello, .installKey 1 daemonKey]), (false, [])]).lcores false) := by
  refine (allOnLastKey_iff [] onePortEach [] [(false, [])] true rfl ?_).mpr ?_ false
  · intro e he
    rw [List.mem_singleton.mp he]
    rfl
  · decide

/-- The key for epoch `0xFF` never reaches the decrypting lcore, however often that lcore
drains. -/
theorem lastKey_notShared : ¬OnSession ⟨0xFF, daemonKey⟩
    ((Runs.run step (start [] onePortEach)
      [(true, [.installKey 0xFF daemonKey]), (false, []), (false, [])]).lcores false) := by
  decide

end KeySharing

end SecureWan
