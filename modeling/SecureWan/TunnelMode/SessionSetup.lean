import SecureWan.CryptoOp
import SecureWan.Lib.Interleaving

/-!
# Session setup on two lcores

Before its loop, `l2fwd_main_loop` of `main_tunnel.c` writes the direction of its port to the
transforms in the options and creates a session from them for each of its devices. The
options are shared by the lcores, and nothing keeps one from changing the direction while the
other still uses it. The code of `main_transport.c` is the same.
-/

namespace SecureWan.TunnelMode

open Interleaving

/-- `enum rte_crypto_cipher_operation`. -/
inductive CipherOperation where
  | encrypt | decrypt
  deriving DecidableEq

/-- `enum rte_crypto_auth_operation`. -/
inductive AuthOperation where
  | verify | generate
  deriving DecidableEq

/-- `enum rte_crypto_aead_operation`. -/
inductive AeadOperation where
  | encrypt | decrypt
  deriving DecidableEq

/-- The transforms in the options. -/
inductive Xform where
  | cipher | auth | aead

/-- What a transform of a session does. -/
inductive XformOp where
  | cipher (op : CipherOperation)
  | auth (op : AuthOperation)
  | aead (op : AeadOperation)

/-- `struct l2fwd_crypto_options`, as far as it concerns the direction. -/
structure Options where
  xformChain : XformChain
  cipherOp : CipherOperation
  authOp : AuthOperation
  aeadOp : AeadOperation
  cipherNext : Option Xform
  authNext : Option Xform

/-- The options once the command line is read. -/
def Options.parsed (xformChain : XformChain) (cipherOp : CipherOperation)
    (authOp : AuthOperation) (aeadOp : AeadOperation) : Options :=
  ⟨xformChain, cipherOp, authOp, aeadOp, none, none⟩

namespace Options

variable (o : Options)

/-- What a transform does at present. -/
def op : Xform → XformOp
  | .cipher => .cipher o.cipherOp
  | .auth => .auth o.authOp
  | .aead => .aead o.aeadOp

/-- `next` of a transform. -/
def next : Xform → Option Xform
  | .cipher => o.cipherNext
  | .auth => o.authNext
  | .aead => none

/-- `first_xform`. -/
def firstXform : Xform :=
  match o.xformChain with
  | .aead => .aead
  | .cipherHash | .cipherOnly => .cipher
  | .hashCipher | .hashOnly => .auth

/-- The transforms that `rte_cryptodev_sym_session_create` finds; no chain is longer. -/
def session : List XformOp := o.op o.firstXform :: ((o.next o.firstXform).map o.op).toList

/-- `first_xform->next = ..` of `initialize_crypto_session`. -/
def linkXforms : Options :=
  match o.xformChain with
  | .cipherHash => { o with cipherNext := some .auth }
  | .hashCipher => { o with authNext := some .cipher }
  | _ => o

end Options

/-- `struct l2fwd_crypto_params`, as far as it concerns the direction. -/
structure Cparams where
  doCipher : Bool
  doHash : Bool
  doAead : Bool
  isEncrypt : Bool
  hashVerify : Bool
  session : Option (List XformOp)

/-- The two lcores, by the port that they own. -/
inductive Lcore where
  | port0 | port1
  deriving DecidableEq

/-- `portid`. -/
def Lcore.portid : Lcore → ℕ
  | .port0 => 0
  | .port1 => 1

/-- The statements that set or use the direction. -/
inductive Stmt where
  | setCipherOp (op : CipherOperation)
  | setAuthOp (op : AuthOperation)
  | initCparams (i : ℕ)
  | readAuthOp (i : ℕ)
  | readAeadOp (i : ℕ)
  | linkXforms (i : ℕ)
  | createSession (i : ℕ)
  deriving DecidableEq

/-- "Set encryption or decryption mode based on port". -/
def setMode (portid : ℕ) : List Stmt :=
  if portid = 0 then [.setCipherOp .encrypt, .setAuthOp .generate]
  else if portid = 1 then [.setCipherOp .decrypt, .setAuthOp .verify]
  else []

/-- The body of the loop over the devices. -/
def initDevice (xformChain : XformChain) (i : ℕ) : List Stmt :=
  .initCparams i ::
    ((if xformChain.doHash then [.readAuthOp i] else []) ++
      (if xformChain.doAead then [.readAeadOp i] else []) ++
      (if xformChain.doCipher && xformChain.doHash then [.linkXforms i] else []) ++
      [.createSession i])

/-- The initialisation part of `l2fwd_main_loop`. -/
def mainLoopInit (xformChain : XformChain) (nbCryptoDevs : ℕ) (t : Lcore) : List Stmt :=
  setMode t.portid ++ (List.range nbCryptoDevs).flatMap (initDevice xformChain)

/-- The shared options and the parameters of each lcore's devices. -/
structure Setup where
  options : Options
  portCparams : Lcore → ℕ → Cparams

/-- Change the parameters of one device. -/
def Setup.modify (s : Setup) (t : Lcore) (i : ℕ) (f : Cparams → Cparams) : Setup :=
  { s with
    portCparams := fun u j => if u = t ∧ j = i then f (s.portCparams u j) else s.portCparams u j }

/-- One statement of an lcore. -/
def Setup.step (s : Setup) (y : Lcore × Stmt) : Setup :=
  match y.2 with
  | .setCipherOp op => { s with options := { s.options with cipherOp := op } }
  | .setAuthOp op => { s with options := { s.options with authOp := op } }
  | .initCparams i =>
    s.modify y.1 i fun c =>
      { c with
        doCipher := s.options.xformChain.doCipher
        doHash := s.options.xformChain.doHash
        doAead := s.options.xformChain.doAead
        isEncrypt := y.1.portid = 0 }
  | .readAuthOp i =>
    s.modify y.1 i fun c => { c with hashVerify := s.options.authOp = .verify }
  | .readAeadOp i =>
    s.modify y.1 i fun c => { c with hashVerify := s.options.aeadOp = .decrypt }
  | .linkXforms _ => { s with options := s.options.linkXforms }
  | .createSession i => s.modify y.1 i fun c => { c with session := some s.options.session }

/-! ### Directions -/

namespace Lcore

variable (t : Lcore)

/-- The direction of the cipher for a port. -/
def cipherOp : CipherOperation := if t.portid = 0 then .encrypt else .decrypt

/-- The direction of the digest for a port. -/
def authOp : AuthOperation := if t.portid = 0 then .generate else .verify

/-- The direction of the combined cipher for a port. -/
def aeadOp : AeadOperation := if t.portid = 0 then .encrypt else .decrypt

/-- A transform has the direction of the port. -/
def Directs : XformOp → Prop
  | .cipher op => op = t.cipherOp
  | .auth op => op = t.authOp
  | .aead op => op = t.aeadOp

end Lcore

/-- Every session has the direction of its lcore, and so has every `hash_verify`. -/
structure Directed (nbCryptoDevs : Lcore → ℕ) (s : Setup) : Prop where
  session : ∀ t, ∀ i < nbCryptoDevs t,
    ∃ ops, (s.portCparams t i).session = some ops ∧ ∀ op ∈ ops, t.Directs op
  hashVerify : ∀ t, ∀ i < nbCryptoDevs t,
    (s.portCparams t i).hashVerify = decide (t.authOp = .verify)

/-! ### Uses of the direction -/

/-- The statements that set the direction of the cipher. -/
def Stmt.setsCipherOp : Stmt → Bool
  | .setCipherOp _ => true
  | _ => false

/-- The statements that set the direction of the digest. -/
def Stmt.setsAuthOp : Stmt → Bool
  | .setAuthOp _ => true
  | _ => false

/-- The statements that use the direction of the cipher. -/
def Stmt.usesCipherOp (xformChain : XformChain) : Stmt → Bool
  | .createSession _ => xformChain.doCipher
  | _ => false

/-- The statements that use the direction of the digest. -/
def Stmt.usesAuthOp (xformChain : XformChain) : Stmt → Bool
  | .createSession _ => xformChain.doHash
  | .readAuthOp _ => true
  | _ => false

/-- The statements that use the direction of the combined cipher. -/
def Stmt.usesAeadOp (xformChain : XformChain) : Stmt → Bool
  | .createSession _ => xformChain.doAead
  | .readAeadOp _ => true
  | _ => false

/-- An lcore that uses a direction has been the last one to set it; that of the combined
cipher, which no lcore sets, is the right one already. -/
structure UsesOwn (options : Options) (before : List (Lcore × Stmt)) (t : Lcore) (a : Stmt) :
    Prop where
  cipherOp : a.usesCipherOp options.xformChain = true →
    lastWriter Stmt.setsCipherOp before = some t
  authOp : a.usesAuthOp options.xformChain = true → lastWriter Stmt.setsAuthOp before = some t
  aeadOp : a.usesAeadOp options.xformChain = true → options.aeadOp = t.aeadOp

/-- No lcore sets a direction between the other's setting it and the other's using it. -/
def Undisturbed (options : Options) (trace : List (Lcore × Stmt)) : Prop :=
  ∀ before t a behind, trace = before ++ (t, a) :: behind → UsesOwn options before t a

/-- With a cipher alone, no lcore sets `hash_verify`, and `port_cparams` is not initialised: the
value that it happens to hold is right. -/
def LeftRight (options : Options) (portCparams : Lcore → ℕ → Cparams) (nbCryptoDevs : Lcore → ℕ) :
    Prop :=
  options.xformChain = .cipherOnly → ∀ t, ∀ i < nbCryptoDevs t,
    (portCparams t i).hashVerify = decide (t.authOp = .verify)

section Uses

variable {options : Options} {before : List (Lcore × Stmt)} {t : Lcore} {a : Stmt} {i : ℕ}

/-- A statement that uses no direction. -/
theorem UsesOwn.of_idle (hcipher : a.usesCipherOp options.xformChain = false)
    (hauth : a.usesAuthOp options.xformChain = false)
    (haead : a.usesAeadOp options.xformChain = false) : UsesOwn options before t a :=
  ⟨by simp [hcipher], by simp [hauth], by simp [haead]⟩

theorem usesOwn_readAuthOp_iff : UsesOwn options before t (.readAuthOp i) ↔
    lastWriter Stmt.setsAuthOp before = some t := by
  constructor
  · intro hown
    exact hown.authOp rfl
  · intro hlast
    exact ⟨by simp [Stmt.usesCipherOp], fun _ => hlast, by simp [Stmt.usesAeadOp]⟩

theorem usesOwn_readAeadOp_iff :
    UsesOwn options before t (.readAeadOp i) ↔ options.aeadOp = t.aeadOp := by
  constructor
  · intro hown
    exact hown.aeadOp rfl
  · intro hop
    exact ⟨by simp [Stmt.usesCipherOp], by simp [Stmt.usesAuthOp], fun _ => hop⟩

end Uses

/-! ### The statements of an lcore -/

/-- The device that a statement is about. -/
def Stmt.device : Stmt → Option ℕ
  | .setCipherOp _ | .setAuthOp _ => none
  | .initCparams i | .readAuthOp i | .readAeadOp i | .linkXforms i | .createSession i => some i

section Program

variable {xformChain : XformChain} {nbCryptoDevs i : ℕ} {t : Lcore} {a : Stmt}

theorem setMode_portid (t : Lcore) :
    setMode t.portid = [.setCipherOp t.cipherOp, .setAuthOp t.authOp] := by
  cases t <;> rfl

theorem mem_initDevice : a ∈ initDevice xformChain i ↔
    a = .initCparams i ∨ (xformChain.doHash = true ∧ a = .readAuthOp i) ∨
      (xformChain.doAead = true ∧ a = .readAeadOp i) ∨
      ((xformChain.doCipher && xformChain.doHash) = true ∧ a = .linkXforms i) ∨
      a = .createSession i := by
  cases xformChain <;> simp [initDevice, XformChain.doCipher, XformChain.doHash, XformChain.doAead]

theorem mem_mainLoopInit : a ∈ mainLoopInit xformChain nbCryptoDevs t ↔
    a = .setCipherOp t.cipherOp ∨ a = .setAuthOp t.authOp ∨
      ∃ i < nbCryptoDevs, a ∈ initDevice xformChain i := by
  rw [mainLoopInit, setMode_portid]
  simp

theorem device_of_mem_initDevice (ha : a ∈ initDevice xformChain i) : a.device = some i := by
  rcases mem_initDevice.mp ha with rfl | ⟨_, rfl⟩ | ⟨_, rfl⟩ | ⟨_, rfl⟩ | rfl <;> rfl

@[simp] theorem createSession_mem :
    .createSession i ∈ mainLoopInit xformChain nbCryptoDevs t ↔ i < nbCryptoDevs := by
  simp [mem_mainLoopInit, mem_initDevice]

@[simp] theorem linkXforms_mem : .linkXforms i ∈ mainLoopInit xformChain nbCryptoDevs t ↔
    i < nbCryptoDevs ∧ (xformChain.doCipher && xformChain.doHash) = true := by
  simp [mem_mainLoopInit, mem_initDevice]

@[simp] theorem readAuthOp_mem : .readAuthOp i ∈ mainLoopInit xformChain nbCryptoDevs t ↔
    i < nbCryptoDevs ∧ xformChain.doHash = true := by
  simp [mem_mainLoopInit, mem_initDevice]

@[simp] theorem readAeadOp_mem : .readAeadOp i ∈ mainLoopInit xformChain nbCryptoDevs t ↔
    i < nbCryptoDevs ∧ xformChain.doAead = true := by
  simp [mem_mainLoopInit, mem_initDevice]

/-- No chain has both a digest and a combined cipher. -/
theorem readAeadOp_notMem (h : xformChain.doHash = true) :
    .readAeadOp i ∉ mainLoopInit xformChain nbCryptoDevs t := by
  intro hmem
  have haead := (readAeadOp_mem.mp hmem).2
  cases xformChain <;> simp [XformChain.doHash, XformChain.doAead] at h haead

/-- The statements of an lcore are in an order that sets the mode first, keeps each device
apart, and is that of `initDevice` within a device. -/
theorem pairwise_mainLoopInit {r : Stmt → Stmt → Prop}
    (hmode : r (.setCipherOp t.cipherOp) (.setAuthOp t.authOp))
    (hsame : ∀ i, (initDevice xformChain i).Pairwise r)
    (hother : ∀ x y j, y.device = some j → x.device ≠ some j → r x y) :
    (mainLoopInit xformChain nbCryptoDevs t).Pairwise r := by
  have hdevices : ((List.range nbCryptoDevs).flatMap (initDevice xformChain)).Pairwise r := by
    refine List.pairwise_flatMap.mpr ⟨fun i _ => hsame i, ?_⟩
    refine (List.nodup_range (n := nbCryptoDevs)).imp fun {i j} hne x hx y hy => ?_
    refine hother x y j (device_of_mem_initDevice hy) ?_
    rw [device_of_mem_initDevice hx]
    exact fun h => hne (Option.some.inj h)
  have hfirst : ∀ x : Stmt, x.device = none →
      ∀ y ∈ (List.range nbCryptoDevs).flatMap (initDevice xformChain), r x y := by
    intro x hx y hy
    obtain ⟨j, _, hj⟩ := List.mem_flatMap.mp hy
    exact hother x y j (device_of_mem_initDevice hj) (by simp [hx])
  rw [mainLoopInit, setMode_portid]
  refine List.pairwise_cons.mpr ⟨?_, List.pairwise_cons.mpr ⟨hfirst _ rfl, hdevices⟩⟩
  exact List.forall_mem_cons.mpr ⟨hmode, hfirst _ rfl⟩

theorem nodup_mainLoopInit : (mainLoopInit xformChain nbCryptoDevs t).Nodup := by
  refine pairwise_mainLoopInit (by simp) (fun i => ?_) fun x y j hy hx heq => ?_
  · cases xformChain <;>
      simp [initDevice, XformChain.doCipher, XformChain.doHash, XformChain.doAead]
  · exact hx (heq ▸ hy)

end Program

section Order

variable {xformChain : XformChain} {nbCryptoDevs : Lcore → ℕ} {i : ℕ} {t : Lcore} {a : Stmt}
  {before behind : List (Lcore × Stmt)}
  (h : IsInterleaving (fun t => mainLoopInit xformChain (nbCryptoDevs t) t)
    (before ++ (t, a) :: behind))

include h

/-- An lcore has set the mode before it comes to its devices. -/
theorem mem_before_of_device {b : Stmt} (hb : b ∈ mainLoopInit xformChain (nbCryptoDevs t) t)
    (hmode : b.device = none) (ha : a.device = some i) : (t, b) ∈ before := by
  have hne : b ≠ a := by
    rintro rfl
    simp [hmode] at ha
  refine h.mem_before hb hne (pairwise_mainLoopInit ?_ (fun j => ?_) ?_)
  · rintro rfl
    cases ha
  · refine List.pairwise_of_forall_mem_list fun _ _ y hy _ => ?_
    rintro rfl
    rw [device_of_mem_initDevice hy] at hmode
    cases hmode
  · rintro _ _ j hj _ _ rfl
    simp [hmode] at hj

/-- An lcore has linked the transforms before it creates the session. -/
theorem linkXforms_before (ha : a = .createSession i)
    (hlink : (xformChain.doCipher && xformChain.doHash) = true) :
    (t, Stmt.linkXforms i) ∈ before := by
  subst ha
  have hi : i < nbCryptoDevs t := createSession_mem.mp (h.mem_program (by simp))
  refine h.mem_before (linkXforms_mem.mpr ⟨hi, hlink⟩) (by simp)
    (pairwise_mainLoopInit (by simp) (fun j => ?_) ?_)
  · cases xformChain <;>
      simp [initDevice, XformChain.doCipher, XformChain.doHash, XformChain.doAead]
  · rintro x y j hj hx rfl rfl
    exact hx hj

end Order

/-! ### What a statement changes -/

namespace Options

/-- The transforms are linked as the chain wants them. -/
def Linked (o : Options) : Prop :=
  match o.xformChain with
  | .cipherHash => o.cipherNext = some .auth
  | .hashCipher => o.authNext = some .cipher
  | _ => o.cipherNext = none ∧ o.authNext = none

variable {o : Options}

@[simp] theorem linkXforms_xformChain : o.linkXforms.xformChain = o.xformChain := by
  unfold linkXforms
  split <;> rfl

@[simp] theorem linkXforms_cipherOp : o.linkXforms.cipherOp = o.cipherOp := by
  unfold linkXforms
  split <;> rfl

@[simp] theorem linkXforms_authOp : o.linkXforms.authOp = o.authOp := by
  unfold linkXforms
  split <;> rfl

@[simp] theorem linkXforms_aeadOp : o.linkXforms.aeadOp = o.aeadOp := by
  unfold linkXforms
  split <;> rfl

theorem linked_linkXforms (h : (o.xformChain.doCipher && o.xformChain.doHash) = true) :
    o.linkXforms.Linked := by
  obtain ⟨xformChain, cipherOp, authOp, aeadOp, cipherNext, authNext⟩ := o
  cases xformChain <;> simp_all [linkXforms, Linked, XformChain.doCipher, XformChain.doHash]

theorem Linked.linkXforms (h : o.Linked) : o.linkXforms.Linked := by
  obtain ⟨xformChain, cipherOp, authOp, aeadOp, cipherNext, authNext⟩ := o
  cases xformChain <;> simp_all [Options.linkXforms, Linked]

/-- A session does what the parts of the chain do. -/
theorem Linked.forall_mem_session (h : o.Linked) {p : XformOp → Prop} :
    (∀ op ∈ o.session, p op) ↔
      (o.xformChain.doCipher = true → p (.cipher o.cipherOp)) ∧
      (o.xformChain.doHash = true → p (.auth o.authOp)) ∧
      (o.xformChain.doAead = true → p (.aead o.aeadOp)) := by
  obtain ⟨xformChain, cipherOp, authOp, aeadOp, cipherNext, authNext⟩ := o
  cases xformChain <;>
    simp_all [Linked, session, firstXform, next, op, XformChain.doCipher, XformChain.doHash,
      XformChain.doAead, and_comm]

end Options

namespace Setup

variable {s : Setup} {t u : Lcore} {i j : ℕ} {f : Cparams → Cparams}

theorem modify_self : (s.modify t i f).portCparams t i = f (s.portCparams t i) :=
  if_pos ⟨rfl, rfl⟩

/-- A change of one device leaves the others alone. -/
theorem modify_of_ne (h : ¬(t = u ∧ i = j)) :
    (s.modify u j f).portCparams t i = s.portCparams t i := if_neg h

/-- A change of one field leaves the others alone. -/
theorem modify_keep {β : Type} (read : Cparams → β) (h : ∀ c, read (f c) = read c) :
    read ((s.modify u j f).portCparams t i) = read (s.portCparams t i) := by
  simp only [modify]
  split
  · exact h _
  · rfl

variable {y : Lcore × Stmt}

@[simp] theorem step_xformChain : (s.step y).options.xformChain = s.options.xformChain := by
  rcases y with ⟨t, _ | _ | _ | _ | _ | _ | _⟩ <;> simp [step, modify]

@[simp] theorem step_aeadOp : (s.step y).options.aeadOp = s.options.aeadOp := by
  rcases y with ⟨t, _ | _ | _ | _ | _ | _ | _⟩ <;> simp [step, modify]

theorem step_cipherOp (h : y.2.setsCipherOp = false) :
    (s.step y).options.cipherOp = s.options.cipherOp := by
  rcases y with ⟨t, _ | _ | _ | _ | _ | _ | _⟩ <;> simp_all [step, modify, Stmt.setsCipherOp]

theorem step_authOp (h : y.2.setsAuthOp = false) :
    (s.step y).options.authOp = s.options.authOp := by
  rcases y with ⟨t, _ | _ | _ | _ | _ | _ | _⟩ <;> simp_all [step, modify, Stmt.setsAuthOp]

theorem step_linked (h : s.options.Linked) : (s.step y).options.Linked := by
  rcases y with ⟨t, _ | _ | _ | _ | _ | _ | _⟩
  case linkXforms => exact h.linkXforms
  all_goals exact h

theorem step_session (h : y ≠ (t, .createSession i)) :
    ((s.step y).portCparams t i).session = (s.portCparams t i).session := by
  rcases y with ⟨u, _ | _ | _ | _ | _ | _ | j⟩ <;> simp only [step]
  case initCparams | readAuthOp | readAeadOp =>
    rw [modify_keep Cparams.session]
    exact fun _ => rfl
  case createSession =>
    rw [modify_of_ne]
    rintro ⟨rfl, rfl⟩
    exact h rfl

theorem step_hashVerify (hauth : y ≠ (t, .readAuthOp i)) (haead : y ≠ (t, .readAeadOp i)) :
    ((s.step y).portCparams t i).hashVerify = (s.portCparams t i).hashVerify := by
  rcases y with ⟨u, _ | _ | _ | j | j | _ | _⟩ <;> simp only [step]
  case initCparams | createSession =>
    rw [modify_keep Cparams.hashVerify]
    exact fun _ => rfl
  case readAuthOp =>
    rw [modify_of_ne]
    rintro ⟨rfl, rfl⟩
    exact hauth rfl
  case readAeadOp =>
    rw [modify_of_ne]
    rintro ⟨rfl, rfl⟩
    exact haead rfl

end Setup

/-! ### What a run leaves -/

section Runs

variable {options : Options} {portCparams : Lcore → ℕ → Cparams} {nbCryptoDevs : Lcore → ℕ}
  {before behind : List (Lcore × Stmt)} {t : Lcore} {a : Stmt} {i : ℕ}

theorem run_xformChain (s : Setup) (trace : List (Lcore × Stmt)) :
    (Runs.run Setup.step s trace).options.xformChain = s.options.xformChain :=
  run_eq_of_untouched (fun s => s.options.xformChain) (fun _ _ _ => Setup.step_xformChain) s

theorem run_aeadOp (s : Setup) (trace : List (Lcore × Stmt)) :
    (Runs.run Setup.step s trace).options.aeadOp = s.options.aeadOp :=
  run_eq_of_untouched (fun s => s.options.aeadOp) (fun _ _ _ => Setup.step_aeadOp) s

variable (s : Setup)
  (h : IsInterleaving (fun t => mainLoopInit s.options.xformChain (nbCryptoDevs t) t)
    (before ++ (t, a) :: behind))

include h

/-- At a device, the direction of the cipher is that of the lcore exactly when this one has
set it last. -/
theorem cipherOp_before_iff (ha : a.device = some i) :
    (Runs.run Setup.step s before).options.cipherOp = t.cipherOp ↔
      lastWriter Stmt.setsCipherOp before = some t := by
  have hmem := mem_before_of_device h (mem_mainLoopInit.mpr (.inl rfl)) rfl ha
  refine run_eq_own_iff (fun s : Setup => s.options.cipherOp) ?_ ?_
    (fun _ _ => Setup.step_cipherOp) hmem rfl s
  · rintro (_ | _) (_ | _) <;> simp [Lcore.cipherOp, Lcore.portid]
  · rintro s' ⟨u, b⟩ hb hwrites
    obtain rfl | rfl | ⟨j, _, hj⟩ := mem_mainLoopInit.mp (h.mem_program (List.mem_append_left _ hb))
    · rfl
    · cases hwrites
    · have hdevice := device_of_mem_initDevice hj
      cases b <;> simp_all [Stmt.device, Stmt.setsCipherOp]

/-- The same for the direction of the digest. -/
theorem authOp_before_iff (ha : a.device = some i) :
    (Runs.run Setup.step s before).options.authOp = t.authOp ↔
      lastWriter Stmt.setsAuthOp before = some t := by
  have hmem := mem_before_of_device h (mem_mainLoopInit.mpr (.inr (.inl rfl))) rfl ha
  refine run_eq_own_iff (fun s : Setup => s.options.authOp) ?_ ?_
    (fun _ _ => Setup.step_authOp) hmem rfl s
  · rintro (_ | _) (_ | _) <;> simp [Lcore.authOp, Lcore.portid]
  · rintro s' ⟨u, b⟩ hb hwrites
    obtain rfl | rfl | ⟨j, _, hj⟩ := mem_mainLoopInit.mp (h.mem_program (List.mem_append_left _ hb))
    · cases hwrites
    · rfl
    · have hdevice := device_of_mem_initDevice hj
      cases b <;> simp_all [Stmt.device, Stmt.setsAuthOp]

/-- An lcore finds the transforms linked when it creates a session. -/
theorem linked_before (ha : a = .createSession i)
    (hs : (s.options.xformChain.doCipher && s.options.xformChain.doHash) = false →
      s.options.Linked) : (Runs.run Setup.step s before).options.Linked := by
  have hkeep : ∀ (s' : Setup) (trace : List (Lcore × Stmt)), s'.options.Linked →
      (Runs.run Setup.step s' trace).options.Linked := by
    intro s' trace hs'
    exact @Runs.run_invariant _ _ Setup.step (fun s => s.options.Linked)
      (fun _ _ => Setup.step_linked) s' hs' trace
  cases hlink : s.options.xformChain.doCipher && s.options.xformChain.doHash with
  | false => exact hkeep s before (hs hlink)
  | true =>
    obtain ⟨first, rest, rfl⟩ := List.append_of_mem (linkXforms_before h ha hlink)
    rw [Runs.run_append, Runs.run_cons]
    refine hkeep _ rest (Options.linked_linkXforms ?_)
    rwa [run_xformChain]

end Runs

section Outcome

variable {nbCryptoDevs : Lcore → ℕ} {before behind : List (Lcore × Stmt)} {t : Lcore} {i : ℕ}
  (s : Setup)

/-- The session of a device is the one that the options describe when it is created. -/
theorem run_session
    (h : IsInterleaving (fun t => mainLoopInit s.options.xformChain (nbCryptoDevs t) t)
      (before ++ (t, .createSession i) :: behind)) :
    ((Runs.run Setup.step s (before ++ (t, .createSession i) :: behind)).portCparams t i).session =
      some (Runs.run Setup.step s before).options.session := by
  have hbehind : ∀ y ∈ behind, ∀ s' : Setup,
      ((s'.step y).portCparams t i).session = (s'.portCparams t i).session := by
    intro y hy s'
    refine Setup.step_session ?_
    rintro rfl
    exact h.not_mem_behind nodup_mainLoopInit hy
  rw [run_eq_of_untouched_behind (fun s : Setup => (s.portCparams t i).session) hbehind]
  simp only [Setup.step, Setup.modify_self]

/-- `hash_verify` of a device keeps what the read of the direction gives it: a chain has only one
such read for a device. -/
theorem run_hashVerify {a : Stmt} (ha : a = .readAuthOp i ∨ a = .readAeadOp i)
    (h : IsInterleaving (fun t => mainLoopInit s.options.xformChain (nbCryptoDevs t) t)
      (before ++ (t, a) :: behind)) :
    ((Runs.run Setup.step s (before ++ (t, a) :: behind)).portCparams t i).hashVerify =
      (((Runs.run Setup.step s before).step (t, a)).portCparams t i).hashVerify := by
  have honly : ∀ b, (b = .readAuthOp i ∨ b = .readAeadOp i) → (t, b) ∉ behind := by
    intro b hb hmem
    have hinA : a ∈ mainLoopInit s.options.xformChain (nbCryptoDevs t) t :=
      h.mem_program (by simp)
    have hinB : b ∈ mainLoopInit s.options.xformChain (nbCryptoDevs t) t :=
      h.mem_program (by simp [hmem])
    rcases ha with rfl | rfl <;> rcases hb with rfl | rfl
    · exact h.not_mem_behind nodup_mainLoopInit hmem
    · exact readAeadOp_notMem (readAuthOp_mem.mp hinA).2 hinB
    · exact readAeadOp_notMem (readAuthOp_mem.mp hinB).2 hinA
    · exact h.not_mem_behind nodup_mainLoopInit hmem
  refine run_eq_of_untouched_behind (fun s : Setup => (s.portCparams t i).hashVerify) ?_ s
  intro y hy s'
  refine Setup.step_hashVerify ?_ ?_
  · rintro rfl
    exact honly _ (.inl rfl) hy
  · rintro rfl
    exact honly _ (.inr rfl) hy

/-- With a digest, `hash_verify` follows the direction of the digest when this is read. -/
theorem run_hashVerify_of_readAuthOp
    (h : IsInterleaving (fun t => mainLoopInit s.options.xformChain (nbCryptoDevs t) t)
      (before ++ (t, .readAuthOp i) :: behind)) :
    ((Runs.run Setup.step s (before ++ (t, .readAuthOp i) :: behind)).portCparams t i).hashVerify =
      decide ((Runs.run Setup.step s before).options.authOp = .verify) := by
  rw [run_hashVerify s (.inl rfl) h]
  simp only [Setup.step, Setup.modify_self]

/-- With a combined cipher, it follows the direction of that. -/
theorem run_hashVerify_of_readAeadOp
    (h : IsInterleaving (fun t => mainLoopInit s.options.xformChain (nbCryptoDevs t) t)
      (before ++ (t, .readAeadOp i) :: behind)) :
    ((Runs.run Setup.step s (before ++ (t, .readAeadOp i) :: behind)).portCparams t i).hashVerify =
      decide (s.options.aeadOp = .decrypt) := by
  rw [run_hashVerify s (.inr rfl) h, ← run_aeadOp s before]
  simp only [Setup.step, Setup.modify_self]

/-- A session has the direction of its lcore exactly when this one has set every direction
that the session uses. -/
theorem session_directed_iff
    (h : IsInterleaving (fun t => mainLoopInit s.options.xformChain (nbCryptoDevs t) t)
      (before ++ (t, .createSession i) :: behind))
    (hs : (s.options.xformChain.doCipher && s.options.xformChain.doHash) = false →
      s.options.Linked) :
    (∀ op ∈ (Runs.run Setup.step s before).options.session, t.Directs op) ↔
      UsesOwn s.options before t (.createSession i) := by
  rw [(linked_before s h rfl hs).forall_mem_session, run_xformChain]
  have hcipher := cipherOp_before_iff s h (i := i) rfl
  have hauth := authOp_before_iff s h (i := i) rfl
  simp only [Lcore.Directs, hcipher, hauth, run_aeadOp]
  constructor
  · rintro ⟨hc, ha, he⟩
    exact ⟨hc, ha, he⟩
  · rintro ⟨hc, ha, he⟩
    exact ⟨hc, ha, he⟩

/-- `hash_verify` matches the lcore exactly when the read of the direction is its own. -/
theorem hashVerify_directed_iff_of_readAuthOp
    (h : IsInterleaving (fun t => mainLoopInit s.options.xformChain (nbCryptoDevs t) t)
      (before ++ (t, .readAuthOp i) :: behind)) :
    ((Runs.run Setup.step s (before ++ (t, .readAuthOp i) :: behind)).portCparams t i).hashVerify =
        decide (t.authOp = .verify) ↔
      UsesOwn s.options before t (.readAuthOp i) := by
  have hauth := authOp_before_iff s h (i := i) rfl
  have hdecide : ∀ op : AuthOperation,
      decide (op = .verify) = decide (t.authOp = .verify) ↔ op = t.authOp := by
    intro op
    cases op <;> cases t.authOp <;> decide
  rw [run_hashVerify_of_readAuthOp s h, hdecide, hauth, usesOwn_readAuthOp_iff]

/-- The same for the combined cipher. -/
theorem hashVerify_directed_iff_of_readAeadOp
    (h : IsInterleaving (fun t => mainLoopInit s.options.xformChain (nbCryptoDevs t) t)
      (before ++ (t, .readAeadOp i) :: behind)) :
    ((Runs.run Setup.step s (before ++ (t, .readAeadOp i) :: behind)).portCparams t i).hashVerify =
        decide (t.authOp = .verify) ↔
      UsesOwn s.options before t (.readAeadOp i) := by
  have hdecide : ∀ op : AeadOperation,
      decide (op = .decrypt) = decide (t.authOp = .verify) ↔ op = t.aeadOp := by
    intro op
    cases op <;> cases t <;> decide
  rw [run_hashVerify_of_readAeadOp s h, hdecide, usesOwn_readAeadOp_iff]

end Outcome

/-- A chain has a digest, a combined cipher or a cipher alone. -/
theorem digest_cases (xformChain : XformChain) :
    xformChain.doHash = true ∨ xformChain.doAead = true ∨ xformChain = .cipherOnly := by
  cases xformChain <;> decide

/-- With a cipher alone, `hash_verify` keeps what it held. -/
theorem run_hashVerify_of_cipherOnly {nbCryptoDevs : Lcore → ℕ} {trace : List (Lcore × Stmt)}
    {t : Lcore} {i : ℕ} (s : Setup) (hchain : s.options.xformChain = .cipherOnly)
    (h : IsInterleaving (fun t => mainLoopInit s.options.xformChain (nbCryptoDevs t) t) trace) :
    ((Runs.run Setup.step s trace).portCparams t i).hashVerify =
      (s.portCparams t i).hashVerify := by
  refine run_eq_of_untouched (fun s : Setup => (s.portCparams t i).hashVerify) ?_ s
  intro y hy s'
  refine Setup.step_hashVerify ?_ ?_
  · rintro rfl
    have hhash := (readAuthOp_mem.mp (h.mem_program hy)).2
    simp [hchain, XformChain.doHash] at hhash
  · rintro rfl
    have haead := (readAeadOp_mem.mp (h.mem_program hy)).2
    simp [hchain, XformChain.doAead] at haead

theorem linked_parsed {xformChain : XformChain} {cipherOp : CipherOperation}
    {authOp : AuthOperation} {aeadOp : AeadOperation}
    (h : (xformChain.doCipher && xformChain.doHash) = false) :
    (Options.parsed xformChain cipherOp authOp aeadOp).Linked := by
  cases xformChain <;> simp_all [Options.parsed, Options.Linked, XformChain.doCipher,
    XformChain.doHash]

/-- **Directions of the sessions.** In every interleaving of the two lcores, each session and
each `hash_verify` has the direction of its lcore exactly when no lcore sets a direction
between the other's setting it and the other's using it. -/
theorem sessionsDirected_iff (xformChain : XformChain) (cipherOp : CipherOperation)
    (authOp : AuthOperation) (aeadOp : AeadOperation) (portCparams : Lcore → ℕ → Cparams)
    (nbCryptoDevs : Lcore → ℕ) (trace : List (Lcore × Stmt))
    (h : IsInterleaving (fun t => mainLoopInit xformChain (nbCryptoDevs t) t) trace) :
    Directed nbCryptoDevs
        (Runs.run Setup.step
          ⟨Options.parsed xformChain cipherOp authOp aeadOp, portCparams⟩ trace) ↔
      Undisturbed (Options.parsed xformChain cipherOp authOp aeadOp) trace ∧
        LeftRight (Options.parsed xformChain cipherOp authOp aeadOp) portCparams
          nbCryptoDevs := by
  let s : Setup := ⟨Options.parsed xformChain cipherOp authOp aeadOp, portCparams⟩
  have hs : (s.options.xformChain.doCipher && s.options.xformChain.doHash) = false →
      s.options.Linked := linked_parsed
  constructor
  · rintro ⟨hsession, hverify⟩
    constructor
    · rintro before t a behind rfl
      have hmem : a ∈ mainLoopInit xformChain (nbCryptoDevs t) t := h.mem_program (by simp)
      cases a with
      | createSession i =>
        obtain ⟨ops, hops, hdirects⟩ := hsession t i (createSession_mem.mp hmem)
        rw [run_session s h, Option.some_inj] at hops
        rw [← hops] at hdirects
        exact (session_directed_iff s h hs).mp hdirects
      | readAuthOp i =>
        have hi := (readAuthOp_mem.mp hmem).1
        exact (hashVerify_directed_iff_of_readAuthOp s h).mp (hverify t i hi)
      | readAeadOp i =>
        have hi := (readAeadOp_mem.mp hmem).1
        exact (hashVerify_directed_iff_of_readAeadOp s h).mp (hverify t i hi)
      | _ => exact UsesOwn.of_idle rfl rfl rfl
    · intro hchain t i hi
      have hkeep := run_hashVerify_of_cipherOnly (t := t) (i := i) s hchain h
      exact hkeep ▸ hverify t i hi
  · rintro ⟨hown, hleft⟩
    refine ⟨fun t i hi => ?_, fun t i hi => ?_⟩
    · obtain ⟨before, behind, rfl⟩ := h.exists_split (t := t) (createSession_mem.mpr hi)
      refine ⟨_, run_session s h, (session_directed_iff s h hs).mpr ?_⟩
      exact hown before t (.createSession i) behind rfl
    · rcases digest_cases xformChain with hhash | haead | hchain
      · obtain ⟨before, behind, rfl⟩ := h.exists_split (t := t) (readAuthOp_mem.mpr ⟨hi, hhash⟩)
        exact (hashVerify_directed_iff_of_readAuthOp s h).mpr (hown before t _ behind rfl)
      · obtain ⟨before, behind, rfl⟩ := h.exists_split (t := t) (readAeadOp_mem.mpr ⟨hi, haead⟩)
        exact (hashVerify_directed_iff_of_readAeadOp s h).mpr (hown before t _ behind rfl)
      · exact (run_hashVerify_of_cipherOnly s hchain h).trans (hleft hchain t i hi)

/-- Where an lcore has executed everything since it set the mode, it finds its own. -/
theorem UsesOwn.of_alone {options : Options} {nbCryptoDevs : Lcore → ℕ}
    {earlier later behind : List (Lcore × Stmt)} {t : Lcore} {a : Stmt}
    (haead : options.xformChain.doAead = false)
    (h : IsInterleaving (fun t => mainLoopInit options.xformChain (nbCryptoDevs t) t)
      ((earlier ++ later) ++ (t, a) :: behind))
    (hothers : ∀ y ∈ earlier, y.1 ≠ t) (halone : ∀ y ∈ later, y.1 = t) :
    UsesOwn options (earlier ++ later) t a := by
  have hmem : a ∈ mainLoopInit options.xformChain (nbCryptoDevs t) t := h.mem_program (by simp)
  obtain rfl | rfl | ⟨i, _, hi⟩ := mem_mainLoopInit.mp hmem
  · exact UsesOwn.of_idle rfl rfl rfl
  · exact UsesOwn.of_idle rfl rfl rfl
  · have hdevice := device_of_mem_initDevice hi
    have hlater : ∀ b ∈ mainLoopInit options.xformChain (nbCryptoDevs t) t, b.device = none →
        (t, b) ∈ later := by
      intro b hb hmode
      rcases List.mem_append.mp (mem_before_of_device h hb hmode hdevice) with hin | hin
      · exact absurd rfl (hothers _ hin)
      · exact hin
    have hcipher := hlater _ (mem_mainLoopInit.mpr (.inl rfl)) rfl
    have hauth := hlater _ (mem_mainLoopInit.mpr (.inr (.inl rfl))) rfl
    refine ⟨fun _ => lastWriter_of_alone hcipher rfl halone,
      fun _ => lastWriter_of_alone hauth rfl halone, fun haeadUse => ?_⟩
    -- without the combined cipher, no statement uses its direction
    rcases mem_initDevice.mp hi with rfl | ⟨_, rfl⟩ | ⟨hread, rfl⟩ | ⟨_, rfl⟩ | rfl
    all_goals simp [Stmt.usesAeadOp, haead] at haeadUse
    simp [haead] at hread

/-- So one lcore after the other is a good order, for the chains whose directions are set. -/
theorem undisturbed_of_serial (options : Options) (haead : options.xformChain.doAead = false)
    (nbCryptoDevs : Lcore → ℕ) {first second : Lcore} (hne : first ≠ second) :
    Undisturbed options
      ((mainLoopInit options.xformChain (nbCryptoDevs first) first).map (Prod.mk first) ++
        (mainLoopInit options.xformChain (nbCryptoDevs second) second).map
          (Prod.mk second)) := by
  have hall : ∀ t, t = first ∨ t = second := by
    intro t
    cases t <;> cases first <;> cases second <;> simp at hne ⊢
  have h : IsInterleaving (fun t => mainLoopInit options.xformChain (nbCryptoDevs t) t) _ :=
    isInterleaving_serial hne hall
  have hfst : ∀ (u : Lcore) (l : List Stmt), ∀ y ∈ l.map (Prod.mk u), y.1 = u := by
    intro u l y hy
    obtain ⟨_, _, rfl⟩ := List.mem_map.mp hy
    rfl
  have hfirst := hfst first (mainLoopInit options.xformChain (nbCryptoDevs first) first)
  have hsecond := hfst second (mainLoopInit options.xformChain (nbCryptoDevs second) second)
  generalize (mainLoopInit options.xformChain (nbCryptoDevs first) first).map (Prod.mk first) =
    early at h hfirst ⊢
  generalize (mainLoopInit options.xformChain (nbCryptoDevs second) second).map
    (Prod.mk second) = late at h hsecond ⊢
  intro before t a behind hsplit
  rw [hsplit] at h
  -- a statement of the second lcore has all of the first before it
  have hbehind : ∀ later, before = early ++ later → late = later ++ (t, a) :: behind →
      UsesOwn options before t a := by
    rintro later rfl rfl
    obtain rfl : t = second := hsecond (t, a) (by simp)
    refine UsesOwn.of_alone haead h (fun y hy => ?_) fun y hy => hsecond y (by simp [hy])
    exact (hfirst y hy).trans_ne hne
  rcases List.append_eq_append_iff.mp hsplit with ⟨later, hhead, htail⟩ | ⟨tail, rfl, htail⟩
  · exact hbehind later hhead htail
  · cases tail with
    | nil => exact hbehind [] (by simp) htail.symm
    | cons y tail =>
      obtain ⟨rfl, _⟩ := List.cons.inj htail
      obtain rfl : t = first := hfirst (t, a) (by simp)
      exact @UsesOwn.of_alone options nbCryptoDevs [] before _ _ _ haead h (by simp)
        fun y hy => hfirst y (List.mem_append_left _ hy)

/-- The parameters of a device before its initialisation. -/
def Cparams.blank : Cparams := ⟨false, false, false, false, false, none⟩

/-- The lcores one after the other, with a device each. -/
def sequential : List (Lcore × Stmt) :=
  (mainLoopInit .cipherHash 1 .port0).map (Prod.mk .port0) ++
    (mainLoopInit .cipherHash 1 .port1).map (Prod.mk .port1)

theorem sessionsDirected_iff_sequential :
    Directed (fun _ => 1)
        (Runs.run Setup.step
          ⟨Options.parsed .cipherHash .encrypt .generate .encrypt, fun _ _ => .blank⟩
          sequential) ↔
      Undisturbed (Options.parsed .cipherHash .encrypt .generate .encrypt) sequential ∧
        LeftRight (Options.parsed .cipherHash .encrypt .generate .encrypt)
          (fun _ _ => .blank) (fun _ => 1) :=
  sessionsDirected_iff .cipherHash .encrypt .generate .encrypt (fun _ _ => .blank) (fun _ => 1)
    sequential (by intro t; cases t <;> rfl)

/-- The lcore of port 1 sets its mode between the mode and the device of the other. -/
def overtaken : List (Lcore × Stmt) :=
  (setMode 0).map (Prod.mk .port0) ++ (setMode 1).map (Prod.mk .port1) ++
    (initDevice .cipherHash 0).map (Prod.mk .port0) ++
    (initDevice .cipherHash 0).map (Prod.mk .port1)

/-- Then the session of port 0 decrypts. -/
theorem overtaken_notDirected :
    IsInterleaving (fun t => mainLoopInit .cipherHash 1 t) overtaken ∧
      ¬Directed (fun _ => 1)
        (Runs.run Setup.step
          ⟨Options.parsed .cipherHash .encrypt .generate .encrypt, fun _ _ => .blank⟩
          overtaken) := by
  constructor
  · intro t
    cases t <;> rfl
  · intro hdirected
    obtain ⟨ops, hops, hdirects⟩ := hdirected.session .port0 0 Nat.one_pos
    have hsession : ops = [.cipher .decrypt, .auth .verify] := (Option.some.inj hops).symm
    subst hsession
    have hcipher : CipherOperation.decrypt = .encrypt := hdirects _ List.mem_cons_self
    cases hcipher

end SecureWan.TunnelMode
