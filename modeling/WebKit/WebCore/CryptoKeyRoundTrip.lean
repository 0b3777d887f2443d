import WebKit.WebCore.CryptoKeySerialization

/-!
# Serialized keys are read back, unless they have more than two primes

For each function that writes there is a lemma that its counterpart reads just these bytes, up to the components of an
RSA key (`reads_components`) and to a whole key (`reads_cryptoKey`). With a third prime the writer leaves the list of
primes (`writeOtherPrimeInfos_eq_none`). So a key makes the round trip iff it has no third prime (`roundTrips_iff`).
-/

namespace WebKit.WebCore

open WebKit.Lib

variable {κ : Type} {platform : RSAPlatform κ}

/-! ## Numbers, blocks and tags -/

theorem reads_uInt32 (i : UInt32) : Reads readUInt32 (writeUInt32 i) i := by
  refine (reads_littleEndian ReadFault.failed i.toNat_lt).bind_pure ?_
  rw [UInt32.ofNat_toNat]
  exact reads_pure i

theorem reads_uInt8 (i : UInt8) : Reads readUInt8 [i] i := by
  have hbytes : littleEndian 1 i.toNat = [i] := by simp [littleEndian]
  have hread : Reads (readLittleEndian ReadFault.failed 1) [i] i.toNat := hbytes ▸ reads_littleEndian _ i.toNat_lt
  refine hread.bind_pure ?_
  rw [UInt8.ofNat_toNat]
  exact reads_pure i

theorem reads_vector (vector : ByteVector) : Reads readVector (writeVector vector) vector := by
  refine (reads_uInt32 _).bind ?_
  have hsize : (UInt32.ofNat vector.val.length).toNat = vector.val.length := UInt32.toNat_ofNat_of_lt vector.property
  rw [hsize]
  refine (reads_block _ vector.val).bind_pure ?_
  rw [dif_pos vector.property]
  exact reads_pure vector

theorem reads_tag {α : Type} {ofValue : UInt8 → Option α} {tag : UInt8} {a : α} (h : ofValue tag = some a) :
    Reads (do orFail (ofValue (← readUInt8))) [tag] a := by
  refine (reads_uInt8 tag).bind_pure ?_
  rw [h]
  exact reads_pure a

theorem reads_algorithm (algorithm : CryptoAlgorithmIdentifier) : Reads readAlgorithm [algorithm.tag] algorithm :=
  reads_tag algorithm.ofTag_tag

theorem usages_facts (usages : CryptoKeyUsage) : (countUsages usages).toNat = (usageTags usages).length ∧
    (usageTags usages).foldl (fun usages tag => usages ||| tag.flag) 0 = usages :=
  forall_uint8 (p := fun usages => (countUsages usages).toNat = (usageTags usages).length ∧
    (usageTags usages).foldl (fun usages tag => usages ||| tag.flag) 0 = usages) (by decide +kernel) usages

theorem reads_usages (tags : List CryptoKeyUsageTag) (usages : CryptoKeyUsage) :
    Reads (readUsages tags.length usages) (tags.map CryptoKeyUsageTag.value)
      (tags.foldl (fun usages tag => usages ||| tag.flag) usages) := by
  induction tags generalizing usages with
  | nil => exact reads_pure usages
  | cons tag tags ih => exact (reads_tag tag.ofValue_value).bind (ih (usages ||| tag.flag))

/-! ## RSA keys -/

theorem reads_primeInfo (info : PrimeInfo) : Reads readPrimeInfo (writePrimeInfo info) info := by
  rw [writePrimeInfo, List.append_assoc]
  exact (reads_vector _).bind ((reads_vector _).bind ((reads_vector _).bind_pure (reads_pure _)))

/-- Whether a key has a third prime. -/
def CryptoKeyDataRSAComponents.hasOtherPrimes : CryptoKeyDataRSAComponents → Bool
  | .createPublic .. => false
  | .createPrivate .. => false
  | .createPrivateWithAdditionalData _ _ _ _ _ otherPrimeInfos _ => !otherPrimeInfos.val.isEmpty

theorem reads_components (components : CryptoKeyDataRSAComponents) (h : components.hasOtherPrimes = false) :
    ∃ bytes, writeRSAComponents components = some bytes ∧ Reads readRSAComponents bytes components := by
  cases components with
  | createPublic modulus exponent =>
    refine ⟨_, rfl, ?_⟩
    rw [List.append_assoc]
    exact (reads_tag (CryptoKeyAsymmetricTypeSubtag.ofValue_value .Public)).bind
      ((reads_vector modulus).bind ((reads_vector exponent).bind_pure (reads_pure _)))
  | createPrivate modulus exponent privateExponent =>
    refine ⟨_, rfl, ?_⟩
    simp only [List.append_assoc]
    exact (reads_tag (CryptoKeyAsymmetricTypeSubtag.ofValue_value .Private)).bind
      ((reads_vector modulus).bind ((reads_vector exponent).bind ((reads_vector privateExponent).bind
        ((reads_uInt32 0).bind_pure (reads_pure _)))))
  | createPrivateWithAdditionalData modulus exponent privateExponent firstPrimeInfo secondPrimeInfo otherPrimeInfos first =>
    obtain ⟨others, hothers⟩ := otherPrimeInfos
    obtain rfl : others = [] := by simpa [CryptoKeyDataRSAComponents.hasOtherPrimes] using h
    obtain ⟨firstPrimeFactor, firstFactorCRTExponent, firstFactorCRTCoefficient⟩ := firstPrimeInfo
    obtain rfl : firstFactorCRTCoefficient = .empty := first
    refine ⟨_, rfl, ?_⟩
    simp only [List.append_assoc, List.append_nil]
    exact (reads_tag (CryptoKeyAsymmetricTypeSubtag.ofValue_value .Private)).bind
      ((reads_vector modulus).bind ((reads_vector exponent).bind ((reads_vector privateExponent).bind
        ((reads_uInt32 2).bind ((reads_pure (⟨[], hothers⟩ : PrimeInfos)).bind ((reads_vector firstPrimeFactor).bind
          ((reads_vector firstFactorCRTExponent).bind ((reads_primeInfo secondPrimeInfo).bind_pure
            (reads_pure _)))))))))

/-- The loop leaves the list of the further primes, where there is one. -/
theorem writeOtherPrimeInfos_eq_none {infos : List PrimeInfo} {count i : Nat} (hi : infos.length < i + count) (hpos : 0 < count) :
    writeOtherPrimeInfos infos count i = none := by
  induction count generalizing i with
  | zero => exact absurd hpos (Nat.lt_irrefl 0)
  | succ count ih =>
    rw [writeOtherPrimeInfos]
    by_cases hinside : i < infos.length
    · have hrest := ih (i := i + 1) (by omega) (by omega)
      simp [List.getElem?_eq_getElem hinside, hrest]
    · simp [List.getElem?_eq_none (Nat.le_of_not_lt hinside)]

theorem writeRSAComponents_eq_none {components : CryptoKeyDataRSAComponents} (h : components.hasOtherPrimes = true) :
    writeRSAComponents components = none := by
  cases components with
  | createPublic => exact absurd h Bool.false_ne_true
  | createPrivate => exact absurd h Bool.false_ne_true
  | createPrivateWithAdditionalData modulus exponent privateExponent firstPrimeInfo secondPrimeInfo otherPrimeInfos first =>
    have hpos : 0 < otherPrimeInfos.val.length := by
      simpa [CryptoKeyDataRSAComponents.hasOtherPrimes, List.length_pos_iff] using h
    have hle : otherPrimeInfos.val.length ≤ (2 ^ 32 - 1) / 48 := otherPrimeInfos.property
    have hcount : (UInt32.ofNat otherPrimeInfos.val.length + 2).toNat - 2 = otherPrimeInfos.val.length := by
      have htwo : (2 : UInt32).toNat = 2 := rfl
      rw [UInt32.toNat_add, UInt32.toNat_ofNat', htwo]
      omega
    have hnone := @writeOtherPrimeInfos_eq_none otherPrimeInfos.val otherPrimeInfos.val.length 2 (by omega) hpos
    rw [writeRSAComponents]
    simp only [hcount, hnone]
    rfl

/-! ## Keys -/

/-- Whether it is an RSA key with a third prime. -/
def CryptoKeyMaterial.hasOtherPrimes (platform : RSAPlatform κ) : CryptoKeyMaterial κ → Bool
  | .RSA _ _ platformKey => (platform.exportData platformKey).hasOtherPrimes
  | _ => false

/-- The key is written, and a key with the same flags and components is read, from just these bytes. -/
def RoundTrips (platform : RSAPlatform κ) (key : CryptoKey κ) : Prop :=
  ∃ bytes, serializeCryptoKey platform key = some bytes ∧
    ∃ key', Reads (deserializeCryptoKey platform) bytes (some key') ∧
      key'.map platform.exportData = key.map platform.exportData

theorem reads_hash (restrictedToHash : Option CryptoAlgorithmIdentifier) :
    Reads (readHash (if restrictedToHash.isSome then 1 else 0))
      (restrictedToHash.toList.map CryptoAlgorithmIdentifier.tag) restrictedToHash := by
  cases restrictedToHash with
  | none => exact reads_pure none
  | some hash => exact (reads_algorithm hash).map some

theorem reads_material {material : CryptoKeyMaterial κ} (h : material.hasOtherPrimes platform = false) :
    ∃ bytes, writeMaterial platform material = some bytes ∧
      ∃ material', Reads (readMaterial platform) bytes (some material') ∧
        material'.map platform.exportData = material.map platform.exportData := by
  cases material with
  | HMAC key hash =>
    refine ⟨_, rfl, .HMAC key hash, ?_, rfl⟩
    rw [List.append_assoc]
    refine (reads_tag (CryptoKeyClassSubtag.ofValue_value .HMAC)).bind (Reads.map ?_ some)
    refine (reads_vector key).bind ((reads_algorithm hash).bind_pure ?_)
    exact reads_pure _
  | AES algorithm valid key =>
    refine ⟨_, rfl, .AES algorithm valid key, ?_, rfl⟩
    rw [List.append_assoc]
    refine (reads_tag (CryptoKeyClassSubtag.ofValue_value .AES)).bind (Reads.map ?_ some)
    refine (reads_algorithm algorithm).bind ?_
    rw [dif_pos valid]
    exact (reads_vector key).bind_pure (reads_pure _)
  | RSA algorithm restrictedToHash platformKey =>
    obtain ⟨components, hwrite, hcomponents⟩ := reads_components _ h
    obtain ⟨platformKey', hcreate, hexport⟩ := platform.create_exportData platformKey
    refine ⟨_, by rw [writeMaterial, hwrite]; rfl, .RSA algorithm restrictedToHash platformKey', ?_, ?_⟩
    · have hcreated : Reads (createRSAKey platform algorithm restrictedToHash (platform.exportData platformKey)) []
          (some (.RSA algorithm restrictedToHash platformKey')) := by
        unfold createRSAKey
        rw [hcreate]
        exact reads_pure _
      simp only [List.append_assoc]
      refine (reads_tag (CryptoKeyClassSubtag.ofValue_value .RSA)).bind ((reads_algorithm algorithm).bind ?_)
      exact (reads_uInt32 _).bind ((reads_hash restrictedToHash).bind (hcomponents.bind_pure hcreated))
    · rw [CryptoKeyMaterial.map, CryptoKeyMaterial.map, hexport]

/-- **A key with at most two primes is written and read back.** -/
theorem roundTrips_of_hasOtherPrimes {key : CryptoKey κ} (h : key.material.hasOtherPrimes platform = false) :
    RoundTrips platform key := by
  obtain ⟨extractable, usages, material⟩ := key
  obtain ⟨hcount, hfold⟩ := usages_facts usages
  obtain ⟨bytes, hwrite, material', hread, hsame⟩ := reads_material h
  have husages : Reads (readUsages (countUsages usages).toNat 0) ((usageTags usages).map CryptoKeyUsageTag.value) usages := by
    have := reads_usages (usageTags usages) 0
    rwa [hfold, ← hcount] at this
  have hextractable : decide ((if extractable then (1 : UInt32) else 0) ≠ 0) = extractable := by
    cases extractable <;> rfl
  refine ⟨_, by rw [serializeCryptoKey, writeCryptoKey, hwrite]; rfl, ⟨extractable, usages, material'⟩, ?_, ?_⟩
  · simp only [List.append_assoc]
    refine (reads_uInt32 _).bind ((reads_uInt32 _).bind ?_)
    refine (reads_uInt32 _).bind ((reads_uInt32 _).bind (husages.bind (hread.bind_pure ?_)))
    rw [Option.map_some, hextractable]
    exact reads_pure _
  · rw [CryptoKey.map, CryptoKey.map, hsame]

/-- **A key makes the round trip iff it has no third prime.** -/
theorem roundTrips_iff (platform : RSAPlatform κ) (key : CryptoKey κ) :
    RoundTrips platform key ↔ key.material.hasOtherPrimes platform = false := by
  refine ⟨fun h => ?_, roundTrips_of_hasOtherPrimes⟩
  obtain ⟨bytes, hwrite, -⟩ := h
  by_contra hother
  obtain ⟨extractable, usages, material⟩ := key
  cases material with
  | HMAC => exact hother rfl
  | AES => exact hother rfl
  | RSA algorithm restrictedToHash platformKey =>
    have hnone := writeRSAComponents_eq_none (Bool.not_eq_false _ ▸ hother)
    simp [serializeCryptoKey, writeCryptoKey, writeMaterial, hnone] at hwrite

/-- A platform that keeps the components of a key. -/
def RSAPlatform.ofComponents : RSAPlatform CryptoKeyDataRSAComponents := ⟨some, id, fun key => ⟨key, rfl, rfl⟩⟩

/-- The modulus 105 with its primes 3, 5 and 7: the writer reads `otherPrimeInfos[2]` of a list with one element. -/
theorem three_primes_not_roundTrips : ¬RoundTrips .ofComponents ⟨true, 1, .RSA .RSA_OAEP none
    (.createPrivateWithAdditionalData ⟨[105], by decide⟩ ⟨[5], by decide⟩ ⟨[5], by decide⟩
      ⟨⟨[3], by decide⟩, ⟨[1], by decide⟩, .empty⟩ ⟨⟨[5], by decide⟩, ⟨[1], by decide⟩, ⟨[2], by decide⟩⟩
      ⟨[⟨⟨[7], by decide⟩, ⟨[5], by decide⟩, ⟨[1], by decide⟩⟩], by decide⟩ rfl)⟩ := by
  rintro ⟨bytes, hwrite, -⟩
  cases hwrite

end WebKit.WebCore
