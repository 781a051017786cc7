import SecureWan.Lib.RangeLoop
import SecureWan.CryptoOp

/-!
# The crypto devices and the sizes that they support

`initialize_cryptodevs` enables the devices whose capabilities match the options, then fills in
the sizes that the options leave open, device by device, in the one copy of the options that
all sessions are made of: a size that is left open becomes the smallest one of the last device.
-/

namespace SecureWan.Capabilities

/-- `struct rte_crypto_param_range`. -/
structure ParamRange where
  min : BitVec 16
  max : BitVec 16
  increment : BitVec 16

namespace ParamRange

variable (r : ParamRange)

/-- `check_supported_size`, with a bound on the rounds of its loop; -1 is `false`. -/
def checkSupportedSize (rounds : ℕ) (length : BitVec 16) : Option Bool :=
  if r.increment = 0 then some (length == r.min)
  else RangeLoop.search r.max r.increment length rounds r.min

/-- The sizes that a range stands for. -/
def Supports (length : BitVec 16) : Prop :=
  if r.increment = 0 then length = r.min
  else RangeLoop.InRange r.min r.max r.increment length

instance (length : BitVec 16) : Decidable (r.Supports length) :=
  inferInstanceAs (Decidable (if r.increment = 0 then length = r.min
    else RangeLoop.InRange r.min r.max r.increment length))

/-- A single size, or no size, or a range with a 16-bit number behind its last size, or the
range of all sizes. -/
def Decided : Prop :=
  r.increment = 0 ∨ r.max < r.min ∨
    r.max.toNat - (r.max.toNat - r.min.toNat) % r.increment.toNat + r.increment.toNat < 2 ^ 16 ∨
    (r.min = 0 ∧ r.increment = 1 ∧ r.max = 65535)

instance : Decidable r.Decided :=
  inferInstanceAs (Decidable (_ ∨ _ ∨ _ ∨ _))

variable {r} {rounds : ℕ} {length : BitVec 16}

theorem toNat_increment_pos (h : r.increment ≠ 0) : 0 < r.increment.toNat :=
  Nat.pos_of_ne_zero fun hzero => h (BitVec.eq_of_toNat_eq hzero)

/-- Where the loop is run, it is over a range that ends, or over all sizes. -/
theorem decided_iff (h : r.increment ≠ 0) :
    r.Decided ↔ RangeLoop.Ends r.min r.max r.increment ∨
      ∀ length, RangeLoop.InRange r.min r.max r.increment length := by
  have hall : (r.min = 0 ∧ r.increment = 1 ∧ r.max = 65535) ↔
      r.min.toNat = 0 ∧ r.increment.toNat = 1 ∧ r.max.toNat = 2 ^ 16 - 1 := by
    simp [← BitVec.toNat_inj]
  rw [RangeLoop.forall_inRange_iff (toNat_increment_pos h), Decided, hall, RangeLoop.Ends,
    imp_iff_not_or, BitVec.not_le, or_iff_right h, or_assoc]

/-- **The check of a range that is decided.** It takes no more rounds than there are sizes. -/
theorem Decided.checkSupportedSize (h : r.Decided) (hrounds : 2 ^ 16 < rounds)
    (length : BitVec 16) :
    r.checkSupportedSize rounds length = some (decide (r.Supports length)) := by
  by_cases hsingle : r.increment = 0
  · simp [ParamRange.checkSupportedSize, Supports, hsingle, beq_eq_decide]
  · have hpos := toNat_increment_pos hsingle
    rw [ParamRange.checkSupportedSize, if_neg hsingle]
    simp only [Supports, if_neg hsingle]
    rcases (decided_iff hsingle).mp h with hends | hall
    · exact RangeLoop.search_of_ends hpos hends (by omega)
    · have hlt := length.isLt
      rw [decide_eq_true (hall length)]
      exact RangeLoop.search_of_inRange hpos (hall length) (by omega)

/-- **When the check is right.** It ends for every size, and finds exactly those that the range
stands for, if and only if the range is decided: otherwise the 16-bit counter wraps around, and
the check lets in a size behind the wrap, or does not end. -/
theorem checkSupportedSize_iff (r : ParamRange) :
    (∀ length, ∃ rounds,
        r.checkSupportedSize rounds length = some (decide (r.Supports length))) ↔ r.Decided := by
  by_cases hsingle : r.increment = 0
  · have hdecided : r.Decided := .inl hsingle
    exact iff_of_true (fun length => ⟨_, hdecided.checkSupportedSize (Nat.lt_succ_self _) length⟩)
      hdecided
  · rw [decided_iff hsingle, ← RangeLoop.finds_inRange_iff (toNat_increment_pos hsingle)]
    simp only [ParamRange.checkSupportedSize, Supports, if_neg hsingle]
    exact Iff.rfl

end ParamRange

/-! ### Options and devices -/

/-- The transforms of a session. -/
inductive XformType where
  | cipher | auth | aead
  deriving DecidableEq

/-- The sizes in the options; `digest` is the digest size of the last transform. -/
inductive Size where
  | cipherIv | cipherKey | authIv | authKey | aeadIv | aeadKey | aad | digest
  deriving DecidableEq

/-- The transforms that are checked and filled in for a chain, in this order. -/
def xforms : XformChain → List XformType
  | .aead => [.aead]
  | .cipherHash | .hashCipher => [.cipher, .auth]
  | .cipherOnly => [.cipher]
  | .hashOnly => [.auth]

/-- The sizes of a transform, in the order of the checks. -/
def XformType.sizes : XformType → List Size
  | .aead => [.aeadIv, .aeadKey, .aad, .digest]
  | .cipher => [.cipherIv, .cipherKey]
  | .auth => [.authIv, .authKey, .digest]

/-- What the options say about a size: whether its bytes are given, the size for random bytes,
which is -1 if it is left open, and the length itself. -/
structure SizeOption where
  param : Bool
  randomSize : ℤ
  length : BitVec 16

namespace SizeOption

variable (opt : SizeOption)

/-- The length that is checked, if there is one. -/
def wanted : Option (BitVec 16) :=
  if opt.param then some opt.length
  else if opt.randomSize ≠ -1 then some (BitVec.ofInt 16 opt.randomSize)
  else none

/-- "No size provided, use minimum size." -/
def fill (r : ParamRange) : SizeOption :=
  if opt.param then opt else { opt with length := opt.wanted.getD r.min }

end SizeOption

/-- `enum cdev_type`. -/
inductive CdevType where
  | any | hw | sw

/-- `struct l2fwd_crypto_options`, as far as the capabilities are concerned. The algorithms are
the numbers of their enumerations. -/
structure Options where
  chain : XformChain
  type : CdevType
  cipherAlgo : ℕ
  authAlgo : ℕ
  aeadAlgo : ℕ
  sizes : Size → SizeOption
  dataunitLen : BitVec 32
  blockSize : BitVec 16
  /-- There is no digest on the command line, only its size. -/
  digest_param : (sizes .digest).param = false

/-- `struct rte_cryptodev_capabilities` of a symmetric transform; the members of its union that
have the same name are one. -/
structure Capability where
  xformType : XformType
  algo : ℕ
  blockSize : BitVec 16
  keySize : ParamRange
  ivSize : ParamRange
  digestSize : ParamRange
  aadSize : ParamRange
  dataunitSet : BitVec 32

/-- The range that a size is checked against. -/
def Capability.range (cap : Capability) : Size → ParamRange
  | .cipherIv | .authIv | .aeadIv => cap.ivSize
  | .cipherKey | .authKey | .aeadKey => cap.keySize
  | .aad => cap.aadSize
  | .digest => cap.digestSize

/-- `struct rte_cryptodev_info`, and whether `check_cryptodev_mask` lets the device through. -/
structure Device where
  inMask : Bool
  hwAccelerated : Bool
  cipherWrappedKey : Bool
  cipherMultipleDataUnits : Bool
  capabilities : List Capability

section Checks

variable (rounds : ℕ) (o : Options) (dev : Device) (cap : Capability)

/-- `check_type`. -/
def checkType : Bool :=
  match o.type with
  | .hw => dev.hwAccelerated
  | .sw => !dev.hwAccelerated
  | .any => true

/-- The loop over the capabilities. -/
def checkDeviceSupportAlgo (x : XformType) (algo : ℕ) : Option Capability :=
  dev.capabilities.find? fun cap => cap.xformType = x && cap.algo = algo && checkType o dev

/-- `check_device_support_cipher_algo`. -/
def checkDeviceSupportCipherAlgo : Option Capability :=
  checkDeviceSupportAlgo o dev .cipher o.cipherAlgo

/-- `check_device_support_auth_algo`. -/
def checkDeviceSupportAuthAlgo : Option Capability :=
  checkDeviceSupportAlgo o dev .auth o.authAlgo

/-- `check_device_support_aead_algo`. -/
def checkDeviceSupportAeadAlgo : Option Capability :=
  checkDeviceSupportAlgo o dev .aead o.aeadAlgo

/-- The capability for a transform. -/
def checkDeviceSupport : XformType → Option Capability
  | .cipher => checkDeviceSupportCipherAlgo o dev
  | .auth => checkDeviceSupportAuthAlgo o dev
  | .aead => checkDeviceSupportAeadAlgo o dev

/-- "Key may be wrapped": a given cipher key of any length. -/
def mayBeWrapped (size : Size) : Bool :=
  size = .cipherKey && (o.sizes size).param && dev.cipherWrappedKey

/-- The check of a size, as in `check_iv_param`. -/
def checkSize (size : Size) : Option Bool :=
  match (o.sizes size).wanted with
  | none => some true
  | some length =>
    ((cap.range size).checkSupportedSize rounds length).map fun supported =>
      supported || mayBeWrapped o dev size

/-- The check of the data unit length, for ciphers. -/
def checkDataunitLen : XformType → Bool
  | .cipher =>
    o.dataunitLen = 0 ||
      (dev.cipherMultipleDataUnits && (cap.dataunitSet = 0 ||
        if o.dataunitLen = 512 then cap.dataunitSet.getLsbD 0
        else if o.dataunitLen = 4096 then cap.dataunitSet.getLsbD 1
        else if o.dataunitLen = 1048576 then cap.dataunitSet.getLsbD 2
        else false))
  | _ => true

end Checks

/-- One check after the other, until one fails. -/
def checkAll : List (Option Bool) → Option Bool
  | [] => some true
  | check :: checks =>
    match check with
    | some true => checkAll checks
    | result => result

/-- The part of `check_capabilities` for a transform. -/
def checkXform (rounds : ℕ) (o : Options) (dev : Device) (x : XformType) : Option Bool :=
  match checkDeviceSupport o dev x with
  | none => some false
  | some cap =>
    checkAll (x.sizes.map (checkSize rounds o dev cap) ++ [some (checkDataunitLen o dev cap x)])

/-- `check_capabilities`. -/
def checkCapabilities (rounds : ℕ) (o : Options) (dev : Device) : Option Bool :=
  checkAll ((xforms o.chain).map (checkXform rounds o dev))

/-- The tests in both loops of `initialize_cryptodevs`. -/
def checkDevice (rounds : ℕ) (o : Options) (dev : Device) : Option Bool :=
  if dev.inMask then checkCapabilities rounds o dev else some false

/-- The part of the second loop that fills in the sizes of a transform. -/
def Options.fillXform (o : Options) (cap : Capability) (x : XformType) : Options where
  chain := o.chain
  type := o.type
  cipherAlgo := o.cipherAlgo
  authAlgo := o.authAlgo
  aeadAlgo := o.aeadAlgo
  sizes size := if size ∈ x.sizes then (o.sizes size).fill (cap.range size) else o.sizes size
  dataunitLen := o.dataunitLen
  blockSize := if x = .auth then o.blockSize else cap.blockSize
  digest_param := by
    rw [apply_ite SizeOption.param, SizeOption.fill, o.digest_param, if_neg Bool.false_ne_true]
    exact ite_self _

/-- The part for a transform; the result of the search is used without a check. -/
def Options.fillFrom (dev : Device) (o : Options) (x : XformType) : Options :=
  match checkDeviceSupport o dev x with
  | none => o
  | some cap => o.fillXform cap x

/-- The options after a device. -/
def Options.fill (o : Options) (dev : Device) : Options :=
  (xforms o.chain).foldl (Options.fillFrom dev) o

/-- The first loop of `initialize_cryptodevs`, with the ports that are left: the marks in
`enabled_cdevs`. -/
def enableCryptodevs (rounds : ℕ) (o : Options) : List Device → ℕ → Option (List Bool)
  | [], _ => some []
  | dev :: devs, left =>
    if left = 0 then some (List.replicate (devs.length + 1) false)
    else do
      let enabled ← checkDevice rounds o dev
      let rest ← enableCryptodevs rounds o devs (if enabled then left - 1 else left)
      return enabled :: rest

/-- The second loop of `initialize_cryptodevs`; the drivers start. -/
def configureCryptodevs (rounds : ℕ) (o : Options) : List (Device × Bool) → Option Options
  | [] => some o
  | (dev, enabled) :: devs =>
    if enabled then do
      let capable ← checkDevice rounds o dev
      configureCryptodevs rounds (if capable then o.fill dev else o) devs
    else configureCryptodevs rounds o devs

/-- `initialize_cryptodevs`: the devices that are enabled, and the options. -/
def initializeCryptodevs (rounds : ℕ) (o : Options) (devs : List Device) (nbPorts : ℕ) :
    Option (List Bool × Options) := do
  let enabledCdevs ← enableCryptodevs rounds o devs nbPorts
  let o ← configureCryptodevs rounds o (devs.zip enabledCdevs)
  return (enabledCdevs, o)

/-! ### What the checks decide -/

/-- The ranges that a device is checked against are decided. -/
def Device.Decided (dev : Device) : Prop :=
  ∀ cap ∈ dev.capabilities, ∀ size ∈ cap.xformType.sizes, (cap.range size).Decided

section Supported

variable (o : Options) (dev : Device) (cap : Capability)

/-- The device takes this length for a size. -/
def supportsLength (size : Size) (length : BitVec 16) : Bool :=
  (cap.range size).Supports length || mayBeWrapped o dev size

/-- The device takes what the options want for a transform. -/
def supportsXform (x : XformType) : Bool :=
  match checkDeviceSupport o dev x with
  | none => false
  | some cap =>
    (x.sizes.all fun size => (o.sizes size).wanted.all (supportsLength o dev cap size)) &&
      checkDataunitLen o dev cap x

/-- The device matches the options. -/
def capable : Bool := dev.inMask && (xforms o.chain).all (supportsXform o dev)

/-- The lengths that are in the options are taken by the device. -/
def Accepts : Prop :=
  ∀ x ∈ xforms o.chain, ∃ cap, checkDeviceSupport o dev x = some cap ∧
    ∀ size ∈ x.sizes, supportsLength o dev cap size (o.sizes size).length = true

end Supported

variable {rounds : ℕ} {o : Options} {dev last : Device} {cap : Capability} {devs : List Device}
  {x : XformType} {size : Size} {nbPorts : ℕ}

/-- Checks that all end are a conjunction. -/
theorem checkAll_map {α : Type} (p : α → Bool) (l : List α) :
    checkAll (l.map fun a => some (p a)) = some (l.all p) := by
  induction l with
  | nil => rfl
  | cons a l ih =>
    rw [List.map_cons, List.all_cons]
    cases hp : p a with
    | true => rw [checkAll, ih, Bool.true_and]
    | false => rfl

/-- What is found is a capability of the device for the transform. -/
theorem of_checkDeviceSupport (h : checkDeviceSupport o dev x = some cap) :
    cap ∈ dev.capabilities ∧ cap.xformType = x := by
  have hfind : ∃ algo, checkDeviceSupportAlgo o dev x algo = some cap := by
    cases x <;> exact ⟨_, h⟩
  obtain ⟨algo, hfind⟩ := hfind
  have hfound := List.find?_some hfind
  simp only [Bool.and_eq_true, decide_eq_true_eq] at hfound
  exact ⟨List.mem_of_find?_eq_some hfind, hfound.1.1⟩

theorem Device.Decided.range (h : dev.Decided) (hcap : checkDeviceSupport o dev x = some cap)
    (hsize : size ∈ x.sizes) : (cap.range size).Decided := by
  obtain ⟨hmem, rfl⟩ := of_checkDeviceSupport hcap
  exact h cap hmem size hsize

/-- The check of a transform ends with the right answer. -/
theorem Device.Decided.checkXform (h : dev.Decided) (hrounds : 2 ^ 16 < rounds) :
    checkXform rounds o dev x = some (supportsXform o dev x) := by
  unfold Capabilities.checkXform supportsXform
  cases hcap : checkDeviceSupport o dev x with
  | none => rfl
  | some cap =>
    have hsize : ∀ size ∈ x.sizes, checkSize rounds o dev cap size =
        some ((o.sizes size).wanted.all (supportsLength o dev cap size)) := by
      intro size hsize
      unfold checkSize
      cases hwanted : (o.sizes size).wanted with
      | none => rfl
      | some length =>
        dsimp only
        rw [(h.range hcap hsize).checkSupportedSize hrounds]
        rfl
    have hall := checkAll_map id
      ((x.sizes.map fun size => (o.sizes size).wanted.all (supportsLength o dev cap size)) ++
        [checkDataunitLen o dev cap x])
    rw [List.map_append, List.map_map, List.all_append, List.all_map] at hall
    dsimp only
    rw [List.map_congr_left hsize]
    simpa [Function.comp_def] using hall

/-- **The check of a device** ends with the right answer. -/
theorem Device.Decided.checkDevice (h : dev.Decided) (hrounds : 2 ^ 16 < rounds) :
    checkDevice rounds o dev = some (capable o dev) := by
  unfold Capabilities.checkDevice checkCapabilities capable
  cases dev.inMask with
  | false => rfl
  | true =>
    rw [if_pos rfl, Bool.true_and, ← checkAll_map]
    congr 1
    exact List.map_congr_left fun x _ => h.checkXform hrounds

/-- **The first loop** enables the first devices that match, one for each port. -/
theorem enableCryptodevs_eq (hrounds : 2 ^ 16 < rounds) (hdevs : ∀ dev ∈ devs, dev.Decided)
    (nbPorts : ℕ) :
    ∃ enabledCdevs, enableCryptodevs rounds o devs nbPorts = some enabledCdevs ∧
      enabledCdevs.length = devs.length ∧
      ((devs.zip enabledCdevs).filter Prod.snd).map Prod.fst =
        (devs.filter (capable o)).take nbPorts := by
  induction devs generalizing nbPorts with
  | nil => exact ⟨[], rfl, rfl, by simp⟩
  | cons dev devs ih =>
    obtain ⟨hdev, hdevs⟩ := List.forall_mem_cons.mp hdevs
    by_cases hleft : nbPorts = 0
    · subst hleft
      refine ⟨List.replicate (devs.length + 1) false, if_pos rfl, by simp, ?_⟩
      rw [List.take_zero, List.map_eq_nil_iff, List.filter_eq_nil_iff]
      intro pair hpair
      rw [List.eq_of_mem_replicate (List.of_mem_zip hpair).2]
      exact Bool.false_ne_true
    · obtain ⟨rest, hrest, hlen, htaken⟩ :=
        ih hdevs (if capable o dev then nbPorts - 1 else nbPorts)
      refine ⟨capable o dev :: rest, ?_, by rw [List.length_cons, List.length_cons, hlen], ?_⟩
      · rw [enableCryptodevs, if_neg hleft, hdev.checkDevice hrounds]
        simp [hrest]
      · rw [List.zip_cons_cons, List.filter_cons, List.filter_cons]
        cases hcapable : capable o dev with
        | true =>
          obtain ⟨left, rfl⟩ := Nat.exists_eq_succ_of_ne_zero hleft
          rw [hcapable, if_pos rfl, Nat.succ_sub_one] at htaken
          simp [htaken]
        | false =>
          rw [hcapable] at htaken
          simpa using htaken

/-! ### What is filled in -/

/-- Filling in a size does not change what is wanted. -/
@[simp] theorem SizeOption.wanted_fill (opt : SizeOption) (r : ParamRange) :
    (opt.fill r).wanted = opt.wanted := by
  unfold SizeOption.fill
  split
  · rfl
  next h => simp only [SizeOption.wanted, h, Bool.false_eq_true, if_false]

/-- The length that is filled in. -/
theorem SizeOption.length_fill (opt : SizeOption) (r : ParamRange) :
    (opt.fill r).length = opt.wanted.getD r.min := by
  unfold SizeOption.fill
  by_cases h : opt.param = true
  · rw [if_pos h, wanted, if_pos h, Option.getD_some]
  · rw [if_neg h]

/-- The options agree in all that the checks read. -/
structure Same (o o' : Options) : Prop where
  chain : o'.chain = o.chain
  type : o'.type = o.type
  cipherAlgo : o'.cipherAlgo = o.cipherAlgo
  authAlgo : o'.authAlgo = o.authAlgo
  aeadAlgo : o'.aeadAlgo = o.aeadAlgo
  wanted : ∀ size, (o'.sizes size).wanted = (o.sizes size).wanted
  param : ∀ size, (o'.sizes size).param = (o.sizes size).param
  dataunitLen : o'.dataunitLen = o.dataunitLen

theorem Same.refl (o : Options) : Same o o :=
  ⟨rfl, rfl, rfl, rfl, rfl, fun _ => rfl, fun _ => rfl, rfl⟩

theorem Same.trans {o o' o'' : Options} (h : Same o o') (h' : Same o' o'') : Same o o'' where
  chain := h'.chain.trans h.chain
  type := h'.type.trans h.type
  cipherAlgo := h'.cipherAlgo.trans h.cipherAlgo
  authAlgo := h'.authAlgo.trans h.authAlgo
  aeadAlgo := h'.aeadAlgo.trans h.aeadAlgo
  wanted size := (h'.wanted size).trans (h.wanted size)
  param size := (h'.param size).trans (h.param size)
  dataunitLen := h'.dataunitLen.trans h.dataunitLen

theorem Same.checkDeviceSupport {o' : Options} (h : Same o o') (dev : Device) :
    checkDeviceSupport o' dev = checkDeviceSupport o dev := by
  have htype : checkType o' dev = checkType o dev := by rw [checkType, checkType, h.type]
  funext x
  cases x <;> simp only [Capabilities.checkDeviceSupport, checkDeviceSupportCipherAlgo,
    checkDeviceSupportAuthAlgo, checkDeviceSupportAeadAlgo, checkDeviceSupportAlgo, htype,
    h.cipherAlgo, h.authAlgo, h.aeadAlgo]

theorem Same.supportsLength {o' : Options} (h : Same o o') (dev : Device) (cap : Capability) :
    supportsLength o' dev cap = supportsLength o dev cap := by
  funext size length
  simp only [Capabilities.supportsLength, mayBeWrapped, h.param]

/-- The checks have the same result. -/
theorem Same.capable {o' : Options} (h : Same o o') (dev : Device) :
    capable o' dev = capable o dev := by
  have hunit : ∀ cap x, checkDataunitLen o' dev cap x = checkDataunitLen o dev cap x := by
    intro cap x
    cases x <;> simp only [checkDataunitLen, h.dataunitLen]
  have hxform : supportsXform o' dev = supportsXform o dev := by
    funext x
    simp only [supportsXform, h.checkDeviceSupport, h.supportsLength, h.wanted, hunit]
  rw [Capabilities.capable, Capabilities.capable, h.chain, hxform]

theorem same_fillXform (o : Options) (cap : Capability) (x : XformType) :
    Same o (o.fillXform cap x) where
  chain := rfl
  type := rfl
  cipherAlgo := rfl
  authAlgo := rfl
  aeadAlgo := rfl
  wanted size := by
    change (if size ∈ x.sizes then _ else _ : SizeOption).wanted = _
    split
    · exact SizeOption.wanted_fill _ _
    · rfl
  param size := by
    change (if size ∈ x.sizes then _ else _ : SizeOption).param = _
    split
    · unfold SizeOption.fill
      split <;> rfl
    · rfl
  dataunitLen := rfl

theorem same_fillFrom (dev : Device) (o : Options) (x : XformType) :
    Same o (o.fillFrom dev x) := by
  unfold Options.fillFrom
  split
  · exact Same.refl o
  · exact same_fillXform o _ x

/-- What is filled in does not change the checks. -/
theorem same_fill (o : Options) (dev : Device) : Same o (o.fill dev) := by
  have hfold : ∀ (xs : List XformType) (o : Options),
      Same o (xs.foldl (Options.fillFrom dev) o) := by
    intro xs
    induction xs with
    | nil => exact Same.refl
    | cons x xs ih => exact fun o => (same_fillFrom dev o x).trans (ih _)
  exact hfold _ o

/-- A size of the transform is filled in. -/
theorem length_fillFrom (hcap : checkDeviceSupport o dev x = some cap) (hsize : size ∈ x.sizes) :
    ((o.fillFrom dev x).sizes size).length =
      (o.sizes size).wanted.getD (cap.range size).min := by
  rw [Options.fillFrom, hcap]
  dsimp only [Options.fillXform]
  rw [if_pos hsize, SizeOption.length_fill]

/-- Another size is not. -/
theorem sizes_fillFrom (o : Options) (dev : Device) (hsize : size ∉ x.sizes) :
    (o.fillFrom dev x).sizes size = o.sizes size := by
  unfold Options.fillFrom
  split
  · rfl
  · exact if_neg hsize

/-- **What a device fills in.** A size that is left open becomes its smallest one. -/
theorem length_fill (hx : x ∈ xforms o.chain) (hcap : checkDeviceSupport o dev x = some cap)
    (hsize : size ∈ x.sizes) :
    ((o.fill dev).sizes size).length = (o.sizes size).wanted.getD (cap.range size).min := by
  have hone : ∀ y, xforms o.chain = [y] → x = y →
      ((o.fill dev).sizes size).length = (o.sizes size).wanted.getD (cap.range size).min := by
    rintro y hchain rfl
    rw [Options.fill, hchain, List.foldl_cons, List.foldl_nil, length_fillFrom hcap hsize]
  have htwo : xforms o.chain = [.cipher, .auth] → x = .cipher ∨ x = .auth →
      ((o.fill dev).sizes size).length = (o.sizes size).wanted.getD (cap.range size).min := by
    intro hchain hx
    rw [Options.fill, hchain, List.foldl_cons, List.foldl_cons, List.foldl_nil]
    rcases hx with rfl | rfl
    · have hother : size ∉ XformType.sizes .auth := by
        revert hsize
        cases size <;> decide
      rw [sizes_fillFrom _ _ hother, length_fillFrom hcap hsize]
    · have hsame := same_fillFrom dev o .cipher
      rw [length_fillFrom (hsame.checkDeviceSupport dev ▸ hcap) hsize, hsame.wanted]
  cases hchain : o.chain <;> rw [hchain] at hx hone htwo <;>
    simp only [xforms, List.mem_cons, List.not_mem_nil, or_false] at hx hone htwo
  · exact htwo trivial hx
  · exact htwo trivial hx
  · exact hone _ rfl hx
  · exact hone _ rfl hx
  · exact hone _ rfl hx

/-- **The second loop** fills in the sizes with all devices that are enabled, one after the
other. -/
theorem configureCryptodevs_eq (hrounds : 2 ^ 16 < rounds) {marked : List (Device × Bool)}
    (hdecided : ∀ pair ∈ marked, pair.1.Decided)
    (hcapable : ∀ pair ∈ marked, pair.2 = true → capable o pair.1 = true) :
    configureCryptodevs rounds o marked =
      some (((marked.filter Prod.snd).map Prod.fst).foldl Options.fill o) := by
  induction marked generalizing o with
  | nil => rfl
  | cons pair marked ih =>
    obtain ⟨dev, enabled⟩ := pair
    obtain ⟨hdev, hdecided'⟩ := List.forall_mem_cons.mp hdecided
    obtain ⟨hcap, hcapable'⟩ := List.forall_mem_cons.mp hcapable
    rw [configureCryptodevs]
    cases enabled with
    | false => exact ih hdecided' hcapable'
    | true =>
      have hrest := ih (o := o.fill dev) hdecided' fun pair hpair hmark =>
        ((same_fill o dev).capable pair.1).trans (hcapable' pair hpair hmark)
      rw [if_pos rfl, hdev.checkDevice hrounds, hcap rfl]
      simpa using hrest

/-- The options after some devices: what was wanted, else the smallest size of the last one. -/
theorem fill_concat (o : Options) (init : List Device) (last : Device) :
    Same o ((init ++ [last]).foldl Options.fill o) ∧
      ∀ x ∈ xforms o.chain, ∀ cap, checkDeviceSupport o last x = some cap → ∀ size ∈ x.sizes,
        (((init ++ [last]).foldl Options.fill o).sizes size).length =
          (o.sizes size).wanted.getD (cap.range size).min := by
  have hsame : ∀ (ds : List Device) (o : Options), Same o (ds.foldl Options.fill o) := by
    intro ds
    induction ds with
    | nil => exact Same.refl
    | cons dev ds ih => exact fun o => (same_fill o dev).trans (ih _)
  refine ⟨hsame _ o, fun x hx cap hcap size hsize => ?_⟩
  have hinit := hsame init o
  rw [List.foldl_append, List.foldl_cons, List.foldl_nil,
    length_fill (hinit.chain ▸ hx) (hinit.checkDeviceSupport last ▸ hcap) hsize, hinit.wanted]

/-- A device that matches the options has a capability for each transform, which takes what
is wanted. -/
theorem of_capable (h : capable o dev = true) (hx : x ∈ xforms o.chain) :
    ∃ cap, checkDeviceSupport o dev x = some cap ∧ ∀ size ∈ x.sizes,
      (o.sizes size).wanted.all (supportsLength o dev cap size) = true := by
  rw [capable, Bool.and_eq_true, List.all_eq_true] at h
  have hxform := h.2 x hx
  unfold supportsXform at hxform
  cases hcap : checkDeviceSupport o dev x with
  | none => rw [hcap] at hxform; cases hxform
  | some cap =>
    rw [hcap] at hxform
    simp only [Bool.and_eq_true, List.all_eq_true] at hxform
    exact ⟨cap, rfl, hxform.1⟩

/-- A device takes the smallest sizes of another one wherever the options leave them open. -/
def TakesMinima (o : Options) (last dev : Device) : Prop :=
  ∀ x ∈ xforms o.chain, ∀ cap capLast, checkDeviceSupport o dev x = some cap →
    checkDeviceSupport o last x = some capLast → ∀ size ∈ x.sizes,
      (o.sizes size).wanted = none → (cap.range size).Supports (capLast.range size).min

/-- One device and the options in the end. -/
theorem accepts_iff {o' : Options} (hsame : Same o o') (hdev : capable o dev = true)
    (hlast : capable o last = true)
    (hlength : ∀ x ∈ xforms o.chain, ∀ cap, checkDeviceSupport o last x = some cap →
      ∀ size ∈ x.sizes, (o'.sizes size).length = (o.sizes size).wanted.getD (cap.range size).min) :
    Accepts o' dev ↔ TakesMinima o last dev := by
  unfold Accepts TakesMinima
  rw [hsame.chain, hsame.checkDeviceSupport]
  simp only [hsame.supportsLength]
  constructor
  · intro h x hx cap capLast hcap hcapLast size hsize hopen
    obtain ⟨cap', hcap', htakes⟩ := h x hx
    obtain rfl : cap' = cap := Option.some.inj (hcap'.symm.trans hcap)
    have hsupports := htakes size hsize
    have hparam : (o.sizes size).param = false := by
      cases hgiven : (o.sizes size).param with
      | false => rfl
      | true => rw [SizeOption.wanted, if_pos hgiven] at hopen; cases hopen
    rw [hlength x hx capLast hcapLast size hsize, hopen, Option.getD_none, supportsLength,
      mayBeWrapped, hparam, Bool.and_false, Bool.false_and, Bool.or_false,
      decide_eq_true_eq] at hsupports
    exact hsupports
  · intro h x hx
    obtain ⟨cap, hcap, hwanted⟩ := of_capable hdev hx
    obtain ⟨capLast, hcapLast, -⟩ := of_capable hlast hx
    refine ⟨cap, hcap, fun size hsize => ?_⟩
    rw [hlength x hx capLast hcapLast size hsize]
    cases hopen : (o.sizes size).wanted with
    | none =>
      have hmin := h x hx cap capLast hcap hcapLast size hsize hopen
      rw [Option.getD_none, supportsLength, decide_eq_true hmin, Bool.true_or]
    | some length =>
      have htakes := hwanted size hsize
      rw [hopen] at htakes
      exact htakes

/-- **One set of sizes for all devices.** On devices whose ranges are decided,
`initialize_cryptodevs` enables the first devices that match the options, one for each port, and
then fills in the sizes of all of them, as none fails the second check with the sizes of those
before it. Each of them takes the lengths that all sessions are then created with, if and only if each of
them takes the smallest sizes of the last of them, wherever the options leave a size open. -/
theorem sessions_accepted_iff (hrounds : 2 ^ 16 < rounds) (o : Options)
    (hdevs : ∀ dev ∈ devs, dev.Decided) (nbPorts : ℕ) :
    let enabled := (devs.filter (capable o)).take nbPorts
    let o' := enabled.foldl Options.fill o
    ∃ enabledCdevs, initializeCryptodevs rounds o devs nbPorts = some (enabledCdevs, o') ∧
      enabledCdevs.length = devs.length ∧
      ((devs.zip enabledCdevs).filter Prod.snd).map Prod.fst = enabled ∧
      ∀ last ∈ enabled.getLast?,
        (∀ dev ∈ enabled, Accepts o' dev) ↔ ∀ dev ∈ enabled, TakesMinima o last dev := by
  intro enabled o'
  obtain ⟨enabledCdevs, henable, hlen, hmarked⟩ :=
    enableCryptodevs_eq (o := o) hrounds hdevs nbPorts
  change _ = enabled at hmarked
  have hmatch : ∀ dev ∈ enabled, capable o dev = true :=
    fun dev hdev => (List.mem_filter.mp (List.mem_of_mem_take hdev)).2
  have hconfigure := configureCryptodevs_eq (o := o) hrounds
    (fun pair hpair => hdevs _ (List.of_mem_zip hpair).1)
    (fun pair hpair hmark => hmatch _ (by
      rw [← hmarked]
      exact List.mem_map.mpr ⟨pair, List.mem_filter.mpr ⟨hpair, hmark⟩, rfl⟩))
  rw [hmarked] at hconfigure
  refine ⟨enabledCdevs, ?_, hlen, hmarked, fun last hlast => ?_⟩
  · rw [initializeCryptodevs, henable]
    simp [hconfigure, o']
  · obtain ⟨init, hinit⟩ := List.getLast?_eq_some_iff.mp hlast
    have hcapable := hmatch last (List.mem_of_getLast? hlast)
    obtain ⟨hsame, hlength⟩ := fill_concat o init last
    rw [← hinit] at hsame hlength
    exact forall₂_congr fun dev hdev => accepts_iff hsame (hmatch dev hdev) hcapable hlength

/-- `l2fwd_crypto_default_options`, with the numbers of the default algorithms. -/
def Options.default (aesCbc sha1Hmac aesGcm : ℕ) : Options where
  chain := .cipherHash
  type := .any
  cipherAlgo := aesCbc
  authAlgo := sha1Hmac
  aeadAlgo := aesGcm
  sizes _ := ⟨false, -1, 0⟩
  dataunitLen := 0
  blockSize := 0
  digest_param := rfl

/-- A device for `AES_CBC` with these key sizes. -/
def cbcDevice (keySize : ParamRange) : Device where
  inMask := true
  hwAccelerated := false
  cipherWrappedKey := false
  cipherMultipleDataUnits := false
  capabilities := [⟨.cipher, 4, 16, keySize, ⟨16, 16, 0⟩, ⟨0, 0, 0⟩, ⟨0, 0, 0⟩, 0⟩]

/-- A device for keys of 32 bytes only, and one for keys of 16, 24 and 32 bytes. -/
theorem sessions_accepted_two :
    let o := { Options.default 4 14 3 with chain := .cipherOnly }
    let devs := [cbcDevice ⟨32, 32, 0⟩, cbcDevice ⟨16, 32, 8⟩]
    let enabled := (devs.filter (capable o)).take 2
    let o' := enabled.foldl Options.fill o
    ∃ enabledCdevs, initializeCryptodevs (2 ^ 16 + 1) o devs 2 = some (enabledCdevs, o') ∧
      enabledCdevs.length = devs.length ∧
      ((devs.zip enabledCdevs).filter Prod.snd).map Prod.fst = enabled ∧
      ∀ last ∈ enabled.getLast?,
        (∀ dev ∈ enabled, Accepts o' dev) ↔ ∀ dev ∈ enabled, TakesMinima o last dev :=
  sessions_accepted_iff (Nat.lt_succ_self _) _
    (by simp only [List.forall_mem_cons, Device.Decided, cbcDevice]; decide) 2

end SecureWan.Capabilities
