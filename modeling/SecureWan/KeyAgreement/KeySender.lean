import SecureWan.KeyAgreement.Keyd

/-!
# The key senders

`key_sender_server` and `key_sender_client`: each makes one full handshake after
the other and sends the first bytes of each key to its own application, under an
epoch that it counts by itself. The server counts every handshake that gave it
keys, the client only those whose key it has delivered, so the epochs of a
handshake agree exactly while the two counts do, modulo their common period.
-/

namespace SecureWan.KeySender

/-- `AES_KEY_LEN`. -/
def aesKeyLen : ℕ := 16

/-- `epoch++; if (epoch == 0xFF) epoch = 0;` -/
def nextEpoch (epoch : UInt8) : UInt8 := if epoch + 1 = 0xFF then 0 else epoch + 1

/-- What one handshake brings to the server process: both keys, unless
`get_server_tls_keys` returns NULL, and the outcomes of its allocations and sends. -/
structure ServerRound where
  keys : Option (Bytes × Bytes)
  allocOk : Bool
  sendOk : Bool
  helloOk : Bool
  resendOk : Bool

/-- What one handshake brings to the client process. -/
structure ClientRound where
  keys : Option (Bytes × Bytes)
  sendOk : Bool
  helloOk : Bool

/-- The message with the first key, cut to `AES_KEY_LEN` bytes. -/
def installMsg (epoch : UInt8) (key : Bytes) : KeydMsg Bytes :=
  .installKey epoch (key.take aesKeyLen)

/-- One pass of the loop of `key_sender_server`: the next epoch, and what reaches
the application. After a failed send the application is connected again. -/
def serverRound (epoch : UInt8) (r : ServerRound) : UInt8 × List (KeydMsg Bytes) :=
  match r.keys with
  | none => (epoch, [])
  | some (encKey, _) =>
    if r.allocOk then
      let sent :=
        if encKey.length < aesKeyLen then []
        else if r.sendOk then [installMsg epoch encKey]
        else
          (if r.helloOk then [.hello] else []) ++
            (if r.resendOk then [installMsg epoch encKey] else [])
      (nextEpoch epoch, sent)
    else (epoch, [])

/-- One pass of the loop of `key_sender_client`. After a failed send the socket is
created again, and the application that connects is greeted. -/
def clientRound (epoch : UInt8) (r : ClientRound) : UInt8 × List (KeydMsg Bytes) :=
  match r.keys with
  | none => (epoch, [])
  | some (encKey, _) =>
    if encKey.length < aesKeyLen then (epoch, [])
    else if r.sendOk then (nextEpoch epoch, [installMsg epoch encKey])
    else (epoch, if r.helloOk then [.hello] else [])

/-- One handshake, at both ends. -/
structure Handshake where
  server : ServerRound
  client : ClientRound

/-- The two counters. -/
structure Senders where
  serverEpoch : UInt8
  clientEpoch : UInt8

/-- Both processes at their start. -/
def start : Senders := ⟨0, 0⟩

/-- One handshake. -/
def step (s : Senders) (h : Handshake) : Senders :=
  ⟨(serverRound s.serverEpoch h.server).1, (clientRound s.clientEpoch h.client).1⟩

/-- Keys that one handshake installs at both applications carry one epoch. -/
def EpochsAgree (s : Senders) (h : Handshake) : Prop :=
  ∀ a ∈ (serverRound s.serverEpoch h.server).2.filterMap KeydMsg.installed,
    ∀ b ∈ (clientRound s.clientEpoch h.client).2.filterMap KeydMsg.installed, a.1 = b.1

/-- The first key, where it is long enough to be used. -/
def usableKey (keys : Option (Bytes × Bytes)) : Bool :=
  match keys with
  | some (encKey, _) => aesKeyLen ≤ encKey.length
  | none => false

/-- The server counts every handshake that gave it keys and memory for them. -/
def ServerRound.counts (r : ServerRound) : Bool := r.keys.isSome && r.allocOk

/-- The server delivers a usable key at the first or the second attempt. -/
def ServerRound.delivers (r : ServerRound) : Bool :=
  usableKey r.keys && r.allocOk && (r.sendOk || r.resendOk)

/-- The client delivers, and counts, a usable key at the first attempt only. -/
def ClientRound.delivers (r : ClientRound) : Bool := usableKey r.keys && r.sendOk

/-- The epoch after a number of counted handshakes. -/
def epochAfter (n : ℕ) : UInt8 := UInt8.ofNat (n % 255)

theorem nextEpoch_epochAfter (n : ℕ) : nextEpoch (epochAfter n) = epochAfter (n + 1) := by
  have hlt : n % 255 < 255 := Nat.mod_lt n (by decide)
  have hsucc : epochAfter n + 1 = UInt8.ofNat (n % 255 + 1) := (UInt8.ofNat_add (n % 255) 1).symm
  unfold nextEpoch
  rw [hsucc]
  by_cases hlast : n % 255 = 254
  · have hwrap : (n + 1) % 255 = 0 := by omega
    rw [hlast, epochAfter, hwrap]
    rfl
  · have hnext : (n + 1) % 255 = n % 255 + 1 := by omega
    rw [if_neg, epochAfter, hnext]
    intro hmax
    have hnat := congrArg UInt8.toNat hmax
    rw [UInt8.toNat_ofNat'] at hnat
    change (n % 255 + 1) % 2 ^ 8 = 255 at hnat
    omega

/-- Two counts give one epoch exactly when they agree modulo the period. -/
theorem epochAfter_inj (m n : ℕ) : epochAfter m = epochAfter n ↔ m % 255 = n % 255 := by
  constructor
  · intro h
    have hnat := congrArg UInt8.toNat h
    rw [epochAfter, epochAfter, UInt8.toNat_ofNat', UInt8.toNat_ofNat'] at hnat
    omega
  · intro h
    rw [epochAfter, epochAfter, h]

/-- The server's next epoch, and what it installs. -/
theorem serverRound_spec (epoch : UInt8) (r : ServerRound) :
    (serverRound epoch r).1 = (if r.counts then nextEpoch epoch else epoch) ∧
      (r.delivers = true → ∃ key,
        (serverRound epoch r).2.filterMap KeydMsg.installed = [(epoch, key)]) ∧
      (r.delivers = false → (serverRound epoch r).2.filterMap KeydMsg.installed = []) := by
  unfold serverRound ServerRound.counts ServerRound.delivers usableKey
  cases hkeys : r.keys with
  | none => simp
  | some keys =>
    obtain ⟨encKey, decKey⟩ := keys
    by_cases hshort : encKey.length < aesKeyLen
    · have hunusable : ¬aesKeyLen ≤ encKey.length := by omega
      cases halloc : r.allocOk <;> simp [hshort, hunusable]
    · have husable : aesKeyLen ≤ encKey.length := by omega
      cases halloc : r.allocOk <;> cases hsend : r.sendOk <;> cases hello : r.helloOk <;>
        cases hresend : r.resendOk <;>
          simp [hshort, husable, installMsg, KeydMsg.installed, List.filterMap_cons]

/-- The client's next epoch, and what it installs. -/
theorem clientRound_spec (epoch : UInt8) (r : ClientRound) :
    (clientRound epoch r).1 = (if r.delivers then nextEpoch epoch else epoch) ∧
      (r.delivers = true → ∃ key,
        (clientRound epoch r).2.filterMap KeydMsg.installed = [(epoch, key)]) ∧
      (r.delivers = false → (clientRound epoch r).2.filterMap KeydMsg.installed = []) := by
  unfold clientRound ClientRound.delivers usableKey
  cases hkeys : r.keys with
  | none => simp
  | some keys =>
    obtain ⟨encKey, decKey⟩ := keys
    by_cases hshort : encKey.length < aesKeyLen
    · have hunusable : ¬aesKeyLen ≤ encKey.length := by omega
      simp [hshort, hunusable]
    · have husable : aesKeyLen ≤ encKey.length := by omega
      cases hsend : r.sendOk <;> cases hello : r.helloOk <;>
        simp [hshort, husable, installMsg, KeydMsg.installed]

/-- Counting on by one event of a kind, or not. -/
private theorem epochAfter_step (n : ℕ) (counted : Bool) :
    (if counted then nextEpoch (epochAfter n) else epochAfter n) =
      epochAfter (n + if counted then 1 else 0) := by
  cases counted with
  | true => exact nextEpoch_epochAfter n
  | false => rfl

/-- **Run lemma.** After a run, the counters stand at the numbers of handshakes
that the server and the client have counted. -/
theorem run_step (m n : ℕ) (hs : List Handshake) :
    Runs.run step ⟨epochAfter m, epochAfter n⟩ hs =
      ⟨epochAfter (m + hs.countP fun h => h.server.counts),
        epochAfter (n + hs.countP fun h => h.client.delivers)⟩ := by
  induction hs generalizing m n with
  | nil => rfl
  | cons h hs ih =>
    have hstep : step ⟨epochAfter m, epochAfter n⟩ h =
        ⟨epochAfter (m + if h.server.counts then 1 else 0),
          epochAfter (n + if h.client.delivers then 1 else 0)⟩ := by
      unfold step
      rw [(serverRound_spec _ _).1, (clientRound_spec _ _).1, epochAfter_step, epochAfter_step]
    rw [Runs.run_cons, hstep, ih, List.countP_cons, List.countP_cons, Nat.add_assoc, Nat.add_assoc,
      Nat.add_comm (ite _ _ _), Nat.add_comm (ite _ _ _)]

/-- A handshake is in agreement exactly when it is not delivered at both ends, or
the counters agree. -/
theorem epochsAgree_iff (s : Senders) (h : Handshake) :
    EpochsAgree s h ↔
      (h.server.delivers = true → h.client.delivers = true → s.serverEpoch = s.clientEpoch) := by
  obtain ⟨_, hserver, hserverNone⟩ := serverRound_spec s.serverEpoch h.server
  obtain ⟨_, hclient, hclientNone⟩ := clientRound_spec s.clientEpoch h.client
  unfold EpochsAgree
  cases hsd : h.server.delivers with
  | false => simp [hserverNone hsd]
  | true =>
    cases hcd : h.client.delivers with
    | false => simp [hclientNone hcd]
    | true =>
      obtain ⟨_, hserverSent⟩ := hserver hsd
      obtain ⟨_, hclientSent⟩ := hclient hcd
      simp [hserverSent, hclientSent]

/-- **Agreement.** In a run, every handshake delivered at both ends carries one
epoch exactly when at each such handshake the server has counted as many earlier
handshakes as the client has delivered, modulo 255. -/
theorem epochsAgree_run_iff (hs : List Handshake) :
    Runs.StepsMeet step EpochsAgree start hs ↔
      ∀ pre h suf, hs = pre ++ h :: suf →
        h.server.delivers = true → h.client.delivers = true →
          (pre.countP fun h => h.server.counts) % 255 =
            (pre.countP fun h => h.client.delivers) % 255 := by
  have hrun (pre : List Handshake) : Runs.run step start pre =
      ⟨epochAfter (pre.countP fun h => h.server.counts),
        epochAfter (pre.countP fun h => h.client.delivers)⟩ := by
    have h := run_step 0 0 pre
    rwa [Nat.zero_add, Nat.zero_add] at h
  rw [Runs.stepsMeet_iff]
  refine forall_congr' fun pre => forall_congr' fun h => forall_congr' fun suf =>
    forall_congr' fun _ => ?_
  rw [epochsAgree_iff, hrun pre]
  simp only [epochAfter_inj]

/-- A handshake that gives both ends a key of 16 bytes. -/
def fullHandshake (clientSendOk : Bool) : Handshake where
  server := ⟨some (List.replicate 16 1, List.replicate 16 2), true, true, true, true⟩
  client := ⟨some (List.replicate 16 1, List.replicate 16 2), clientSendOk, true⟩

/-- The client's application is away for one handshake, and the next one is
delivered under epoch 1 at the server and epoch 0 at the client. -/
theorem epochs_drift :
    ¬Runs.StepsMeet step EpochsAgree start [fullHandshake false, fullHandshake true] := by
  rintro ⟨_, hagree, _⟩
  rw [epochsAgree_iff] at hagree
  exact absurd (hagree rfl rfl) (by decide)

end SecureWan.KeySender
