import WebKit.Lib.Bytes

/-!
# The serialization of cryptographic keys

`writeCryptoKey` is what `CloneSerializer` writes for a `CryptoKey` and `readCryptoKey` is how `CloneDeserializer` reads
it: a version, the flags, the usages one by one, and what the class of the key has. Numbers are little-endian. A `bool`
is written as an `int32_t`.

A `Vector` has an `unsigned` size. The components of an RSA key are those that one of three functions was given. The
platform keeps an RSA key in its own form, which `RSAPlatform` stands for; writing asks for the components, and reading
creates a key from them.

In both directions the loop over the further primes starts at index 2, although `otherPrimeInfos` has the third prime at
index 0. Outside the list the writer is `none` and the reader stops with `outOfRange`.
-/

namespace WebKit.WebCore

open WebKit.Lib

/-! ## Keys -/

inductive CryptoAlgorithmIdentifier
  | RSAES_PKCS1_v1_5 | RSASSA_PKCS1_v1_5 | RSA_PSS | RSA_OAEP | ECDSA | ECDH
  | AES_CTR | AES_CBC | AES_CMAC | AES_GCM | AES_CFB | AES_KW
  | HMAC | DH | SHA_1 | SHA_224 | SHA_256 | SHA_384 | SHA_512 | CONCAT | HKDF_CTR | PBKDF2
  deriving DecidableEq, Repr

/-- `Vector<uint8_t>`. -/
abbrev ByteVector := { bytes : List UInt8 // bytes.length < 2 ^ 32 }

def ByteVector.empty : ByteVector := ⟨[], by decide⟩

structure PrimeInfo where
  primeFactor : ByteVector
  factorCRTExponent : ByteVector
  factorCRTCoefficient : ByteVector
  deriving DecidableEq

/-- How many elements of 48 bytes a `Vector` has at most. -/
def maxPrimeInfos : Nat := (2 ^ 32 - 1) / 48

/-- `Vector<PrimeInfo>`. -/
abbrev PrimeInfos := { infos : List PrimeInfo // infos.length ≤ maxPrimeInfos }

/-- The components of an RSA key, by the function that created them. The first prime has no CRT coefficient. -/
inductive CryptoKeyDataRSAComponents
  | createPublic (modulus exponent : ByteVector)
  | createPrivate (modulus exponent privateExponent : ByteVector)
  | createPrivateWithAdditionalData (modulus exponent privateExponent : ByteVector)
    (firstPrimeInfo secondPrimeInfo : PrimeInfo) (otherPrimeInfos : PrimeInfos)
    (first : firstPrimeInfo.factorCRTCoefficient = .empty)
  deriving DecidableEq

def isValidAESAlgorithm (algorithm : CryptoAlgorithmIdentifier) : Bool :=
  algorithm = .AES_CTR || algorithm = .AES_CBC || algorithm = .AES_CMAC || algorithm = .AES_GCM ||
    algorithm = .AES_CFB || algorithm = .AES_KW

/-- What a key has besides its flags, by its class. `κ` are the RSA keys of the platform. -/
inductive CryptoKeyMaterial (κ : Type)
  | HMAC (key : ByteVector) (hash : CryptoAlgorithmIdentifier)
  | AES (algorithm : CryptoAlgorithmIdentifier) (valid : isValidAESAlgorithm algorithm = true) (key : ByteVector)
  | RSA (algorithm : CryptoAlgorithmIdentifier) (restrictedToHash : Option CryptoAlgorithmIdentifier) (platformKey : κ)
  deriving DecidableEq

/-- The eight flags of an `int`. -/
abbrev CryptoKeyUsage := UInt8

structure CryptoKey (κ : Type) where
  extractable : Bool
  usages : CryptoKeyUsage
  material : CryptoKeyMaterial κ
  deriving DecidableEq

def CryptoKeyMaterial.map {κ κ' : Type} (f : κ → κ') : CryptoKeyMaterial κ → CryptoKeyMaterial κ'
  | .HMAC key hash => .HMAC key hash
  | .AES algorithm valid key => .AES algorithm valid key
  | .RSA algorithm restrictedToHash platformKey => .RSA algorithm restrictedToHash (f platformKey)

def CryptoKey.map {κ κ' : Type} (f : κ → κ') (key : CryptoKey κ) : CryptoKey κ' :=
  ⟨key.extractable, key.usages, key.material.map f⟩

/-- The RSA keys of a platform. The components of a key create a key with these components. -/
structure RSAPlatform (κ : Type) where
  create : CryptoKeyDataRSAComponents → Option κ
  exportData : κ → CryptoKeyDataRSAComponents
  create_exportData : ∀ key, ∃ key', create (exportData key) = some key' ∧ exportData key' = exportData key

/-! ## Tags -/

/-- `write(CryptoAlgorithmIdentifier)`, with the values of `CryptoAlgorithmIdentifierTag`. -/
def CryptoAlgorithmIdentifier.tag : CryptoAlgorithmIdentifier → UInt8
  | .RSAES_PKCS1_v1_5 => 0
  | .RSASSA_PKCS1_v1_5 => 1
  | .RSA_PSS => 2
  | .RSA_OAEP => 3
  | .ECDSA => 4
  | .ECDH => 5
  | .AES_CTR => 6
  | .AES_CBC => 7
  | .AES_CMAC => 8
  | .AES_GCM => 9
  | .AES_CFB => 10
  | .AES_KW => 11
  | .HMAC => 12
  | .DH => 13
  | .SHA_1 => 14
  | .SHA_224 => 15
  | .SHA_256 => 16
  | .SHA_384 => 17
  | .SHA_512 => 18
  | .CONCAT => 19
  | .HKDF_CTR => 20
  | .PBKDF2 => 21

/-- The identifier of a tag up to `cryptoAlgorithmIdentifierTagMaximumValue`. -/
def CryptoAlgorithmIdentifier.ofTag (tag : UInt8) : Option CryptoAlgorithmIdentifier :=
  match tag.toNat with
  | 0 => some .RSAES_PKCS1_v1_5
  | 1 => some .RSASSA_PKCS1_v1_5
  | 2 => some .RSA_PSS
  | 3 => some .RSA_OAEP
  | 4 => some .ECDSA
  | 5 => some .ECDH
  | 6 => some .AES_CTR
  | 7 => some .AES_CBC
  | 8 => some .AES_CMAC
  | 9 => some .AES_GCM
  | 10 => some .AES_CFB
  | 11 => some .AES_KW
  | 12 => some .HMAC
  | 13 => some .DH
  | 14 => some .SHA_1
  | 15 => some .SHA_224
  | 16 => some .SHA_256
  | 17 => some .SHA_384
  | 18 => some .SHA_512
  | 19 => some .CONCAT
  | 20 => some .HKDF_CTR
  | 21 => some .PBKDF2
  | _ => none

theorem CryptoAlgorithmIdentifier.ofTag_tag (algorithm : CryptoAlgorithmIdentifier) : ofTag algorithm.tag = some algorithm := by
  cases algorithm <;> rfl

inductive CryptoKeyUsageTag
  | Encrypt | Decrypt | Sign | Verify | DeriveKey | DeriveBits | WrapKey | UnwrapKey
  deriving DecidableEq, Repr

namespace CryptoKeyUsageTag

def value : CryptoKeyUsageTag → UInt8
  | Encrypt => 0
  | Decrypt => 1
  | Sign => 2
  | Verify => 3
  | DeriveKey => 4
  | DeriveBits => 5
  | WrapKey => 6
  | UnwrapKey => 7

/-- The tag of a value up to `cryptoKeyUsageTagMaximumValue`. -/
def ofValue (tag : UInt8) : Option CryptoKeyUsageTag :=
  match tag.toNat with
  | 0 => some Encrypt
  | 1 => some Decrypt
  | 2 => some Sign
  | 3 => some Verify
  | 4 => some DeriveKey
  | 5 => some DeriveBits
  | 6 => some WrapKey
  | 7 => some UnwrapKey
  | _ => none

/-- `CryptoKeyUsageEncrypt` and the others. -/
def flag : CryptoKeyUsageTag → CryptoKeyUsage
  | Encrypt => (1 : UInt8) <<< 0
  | Decrypt => (1 : UInt8) <<< 1
  | Sign => (1 : UInt8) <<< 2
  | Verify => (1 : UInt8) <<< 3
  | DeriveKey => (1 : UInt8) <<< 4
  | DeriveBits => (1 : UInt8) <<< 5
  | WrapKey => (1 : UInt8) <<< 6
  | UnwrapKey => (1 : UInt8) <<< 7

/-- The tags in the order in which they are written. -/
def all : List CryptoKeyUsageTag := [Encrypt, Decrypt, Sign, Verify, DeriveKey, DeriveBits, WrapKey, UnwrapKey]

theorem ofValue_value (tag : CryptoKeyUsageTag) : ofValue tag.value = some tag := by cases tag <;> rfl

end CryptoKeyUsageTag

inductive CryptoKeyClassSubtag
  | HMAC | AES | RSA
  deriving DecidableEq, Repr

def CryptoKeyClassSubtag.value : CryptoKeyClassSubtag → UInt8
  | HMAC => 0
  | AES => 1
  | RSA => 2

def CryptoKeyClassSubtag.ofValue (tag : UInt8) : Option CryptoKeyClassSubtag :=
  match tag.toNat with
  | 0 => some HMAC
  | 1 => some AES
  | 2 => some RSA
  | _ => none

theorem CryptoKeyClassSubtag.ofValue_value (tag : CryptoKeyClassSubtag) : ofValue tag.value = some tag := by
  cases tag <;> rfl

inductive CryptoKeyAsymmetricTypeSubtag
  | Public | Private
  deriving DecidableEq, Repr

def CryptoKeyAsymmetricTypeSubtag.value : CryptoKeyAsymmetricTypeSubtag → UInt8
  | Public => 0
  | Private => 1

def CryptoKeyAsymmetricTypeSubtag.ofValue (tag : UInt8) : Option CryptoKeyAsymmetricTypeSubtag :=
  match tag.toNat with
  | 0 => some Public
  | 1 => some Private
  | _ => none

theorem CryptoKeyAsymmetricTypeSubtag.ofValue_value (tag : CryptoKeyAsymmetricTypeSubtag) :
    ofValue tag.value = some tag := by
  cases tag <;> rfl

/-! ## Writing -/

/-- `write(uint32_t)`. -/
def writeUInt32 (i : UInt32) : List UInt8 := littleEndian 4 i.toNat

/-- A `bool` goes to `write(int32_t)`. -/
def writeBool (b : Bool) : List UInt8 := writeUInt32 (if b then 1 else 0)

/-- `write(const Vector<uint8_t>&)`. -/
def writeVector (vector : ByteVector) : List UInt8 := writeUInt32 (UInt32.ofNat vector.val.length) ++ vector.val

/-- The members that are written of a prime behind the second one. -/
def writePrimeInfo (info : PrimeInfo) : List UInt8 :=
  writeVector info.primeFactor ++ writeVector info.factorCRTExponent ++ writeVector info.factorCRTCoefficient

/-- `for (unsigned i = 2; i < primeCount; ++i)` over `otherPrimeInfos()[i]`, with `count` rounds to go. -/
def writeOtherPrimeInfos (infos : List PrimeInfo) : (count i : Nat) → Option (List UInt8)
  | 0, _ => some []
  | count + 1, i => do
    let info ← infos[i]?
    let rest ← writeOtherPrimeInfos infos count (i + 1)
    return writePrimeInfo info ++ rest

/-- `write(const CryptoKeyDataRSAComponents&)`. -/
def writeRSAComponents : CryptoKeyDataRSAComponents → Option (List UInt8)
  | .createPublic modulus exponent =>
    some ([CryptoKeyAsymmetricTypeSubtag.Public.value] ++ writeVector modulus ++ writeVector exponent)
  | .createPrivate modulus exponent privateExponent =>
    some ([CryptoKeyAsymmetricTypeSubtag.Private.value] ++ writeVector modulus ++ writeVector exponent ++
      writeVector privateExponent ++ writeUInt32 0)
  | .createPrivateWithAdditionalData modulus exponent privateExponent firstPrimeInfo secondPrimeInfo otherPrimeInfos _ => do
    let primeCount := UInt32.ofNat otherPrimeInfos.val.length + 2
    let others ← writeOtherPrimeInfos otherPrimeInfos.val (primeCount.toNat - 2) 2
    return [CryptoKeyAsymmetricTypeSubtag.Private.value] ++ writeVector modulus ++ writeVector exponent ++
      writeVector privateExponent ++ writeUInt32 primeCount ++ writeVector firstPrimeInfo.primeFactor ++
      writeVector firstPrimeInfo.factorCRTExponent ++ writePrimeInfo secondPrimeInfo ++ others

/-- The loop of `countUsages`: each round clears one of the bits that are set. -/
def countUsagesLoop : Nat → CryptoKeyUsage → UInt32
  | 0, _ => 0
  | n + 1, usages => if usages = 0 then 0 else countUsagesLoop n (usages &&& (usages - 1)) + 1

def countUsages (usages : CryptoKeyUsage) : UInt32 := countUsagesLoop 8 usages

/-- The usages that are written. -/
def usageTags (usages : CryptoKeyUsage) : List CryptoKeyUsageTag :=
  CryptoKeyUsageTag.all.filter fun tag => usages &&& tag.flag ≠ 0

def currentKeyFormatVersion : UInt32 := 1

variable {κ : Type} (platform : RSAPlatform κ)

/-- What is written behind the usages: the class of the key, and what its class has. -/
def writeMaterial : CryptoKeyMaterial κ → Option (List UInt8)
  | .HMAC key hash => some ([CryptoKeyClassSubtag.HMAC.value] ++ writeVector key ++ [hash.tag])
  | .AES algorithm _ key => some ([CryptoKeyClassSubtag.AES.value] ++ [algorithm.tag] ++ writeVector key)
  | .RSA algorithm restrictedToHash platformKey => do
    let components ← writeRSAComponents (platform.exportData platformKey)
    return [CryptoKeyClassSubtag.RSA.value] ++ [algorithm.tag] ++ writeBool restrictedToHash.isSome ++
      restrictedToHash.toList.map CryptoAlgorithmIdentifier.tag ++ components

/-- `write(const CryptoKey*)`. -/
def writeCryptoKey (key : CryptoKey κ) : Option (List UInt8) := do
  let material ← writeMaterial platform key.material
  return writeUInt32 currentKeyFormatVersion ++ writeBool key.extractable ++ writeUInt32 (countUsages key.usages) ++
    (usageTags key.usages).map CryptoKeyUsageTag.value ++ material

/-- `CurrentVersion`, which a serializer writes first. -/
def CurrentVersion : UInt32 := 5

/-- What the serializer of a key writes in all. -/
def serializeCryptoKey (key : CryptoKey κ) : Option (List UInt8) := do
  let bytes ← writeCryptoKey platform key
  return writeUInt32 CurrentVersion ++ bytes

/-! ## Reading -/

/-- How reading ends without a key: `false`, an index outside a vector, or a vector that is too large or a null key. -/
inductive ReadFault
  | failed
  | outOfRange
  | crash
  deriving DecidableEq, Repr

abbrev Deserializing := Reading ReadFault

/-- What the checks of a reading function leave. -/
def orFail {α : Type} : Option α → Deserializing α
  | some a => pure a
  | none => throw .failed

/-- `read(uint32_t&)`, and `read(int32_t&)`. -/
def readUInt32 : Deserializing UInt32 := do return UInt32.ofNat (← readLittleEndian .failed 4)

/-- `read(uint8_t&)`. -/
def readUInt8 : Deserializing UInt8 := do return UInt8.ofNat (← readLittleEndian .failed 1)

/-- `read(Vector<uint8_t>&)`. -/
def readVector : Deserializing ByteVector := do
  let size ← readUInt32
  let block ← readBlock .failed size.toNat
  if h : block.length < 2 ^ 32 then return ⟨block, h⟩ else throw .crash

def readAlgorithm : Deserializing CryptoAlgorithmIdentifier := do orFail (CryptoAlgorithmIdentifier.ofTag (← readUInt8))

def readUsageTag : Deserializing CryptoKeyUsageTag := do orFail (CryptoKeyUsageTag.ofValue (← readUInt8))

def readClassSubtag : Deserializing CryptoKeyClassSubtag := do orFail (CryptoKeyClassSubtag.ofValue (← readUInt8))

def readAsymmetricTypeSubtag : Deserializing CryptoKeyAsymmetricTypeSubtag := do orFail (CryptoKeyAsymmetricTypeSubtag.ofValue (← readUInt8))

def readPrimeInfo : Deserializing PrimeInfo := do
  let primeFactor ← readVector
  let factorCRTExponent ← readVector
  let factorCRTCoefficient ← readVector
  return ⟨primeFactor, factorCRTExponent, factorCRTCoefficient⟩

/-- The loop over the further primes, with `count` rounds to go. -/
def readOtherPrimeInfos : (count i : Nat) → PrimeInfos → Deserializing PrimeInfos
  | 0, _, infos => return infos
  | count + 1, i, infos =>
    if i < infos.val.length then do
      let info ← readPrimeInfo
      readOtherPrimeInfos count (i + 1) ⟨infos.val.set i info, by rw [List.length_set]; exact infos.property⟩
    else throw .outOfRange

/-- `Vector<PrimeInfo> otherPrimeInfos(size)`. -/
def newPrimeInfos (size : Nat) : Deserializing PrimeInfos :=
  if h : size ≤ maxPrimeInfos then
    return ⟨List.replicate size ⟨.empty, .empty, .empty⟩, by rwa [List.length_replicate]⟩
  else throw .crash

/-- The components, from their type on. -/
def readRSAComponents : Deserializing CryptoKeyDataRSAComponents := do
  let type ← readAsymmetricTypeSubtag
  let modulus ← readVector
  let exponent ← readVector
  match type with
  | .Public => return .createPublic modulus exponent
  | .Private =>
    let privateExponent ← readVector
    let primeCount ← readUInt32
    if primeCount = 0 then return .createPrivate modulus exponent privateExponent
    else if primeCount < 2 then throw .failed
    else
      let otherPrimeInfos ← newPrimeInfos (primeCount.toNat - 2)
      let firstPrimeFactor ← readVector
      let firstFactorCRTExponent ← readVector
      let secondPrimeInfo ← readPrimeInfo
      let otherPrimeInfos ← readOtherPrimeInfos (primeCount.toNat - 2) 2 otherPrimeInfos
      return .createPrivateWithAdditionalData modulus exponent privateExponent
        ⟨firstPrimeFactor, firstFactorCRTExponent, .empty⟩ secondPrimeInfo otherPrimeInfos rfl

def readHMACKey : Deserializing (CryptoKeyMaterial κ) := do
  let keyData ← readVector
  let hash ← readAlgorithm
  return .HMAC keyData hash

def readAESKey : Deserializing (CryptoKeyMaterial κ) := do
  let algorithm ← readAlgorithm
  if valid : isValidAESAlgorithm algorithm = true then
    let keyData ← readVector
    return .AES algorithm valid keyData
  else throw .failed

/-- The end of each branch of `readRSAKey`. A key that the platform does not create is null. -/
def createRSAKey (algorithm : CryptoAlgorithmIdentifier) (hash : Option CryptoAlgorithmIdentifier)
    (keyData : CryptoKeyDataRSAComponents) : Deserializing (Option (CryptoKeyMaterial κ)) :=
  match platform.create keyData, hash with
  | some key, hash => return some (.RSA algorithm hash key)
  | none, none => return none
  | none, some _ => throw .crash

/-- The hash, where the key is restricted to one. -/
def readHash (isRestrictedToHash : UInt32) : Deserializing (Option CryptoAlgorithmIdentifier) :=
  if isRestrictedToHash ≠ 0 then some <$> readAlgorithm else pure none

def readRSAKey : Deserializing (Option (CryptoKeyMaterial κ)) := do
  let algorithm ← readAlgorithm
  let isRestrictedToHash ← readUInt32
  let hash ← readHash isRestrictedToHash
  let keyData ← readRSAComponents
  createRSAKey platform algorithm hash keyData

def readMaterial : Deserializing (Option (CryptoKeyMaterial κ)) := do
  match ← readClassSubtag with
  | .HMAC => some <$> readHMACKey
  | .AES => some <$> readAESKey
  | .RSA => readRSAKey platform

/-- The loop over the usages. -/
def readUsages : Nat → CryptoKeyUsage → Deserializing CryptoKeyUsage
  | 0, usages => return usages
  | count + 1, usages => do
    let usage ← readUsageTag
    readUsages count (usages ||| usage.flag)

/-- `readCryptoKey`. The key may be null. -/
def readCryptoKey : Deserializing (Option (CryptoKey κ)) := do
  let keyFormatVersion ← readUInt32
  if keyFormatVersion > currentKeyFormatVersion then throw .failed
  let extractable ← readUInt32
  let usagesCount ← readUInt32
  let usages ← readUsages usagesCount.toNat 0
  let material ← readMaterial platform
  return material.map fun material => ⟨extractable ≠ 0, usages, material⟩

/-- The constructor of the deserializer reads the version, and then the key is read. -/
def deserializeCryptoKey : Deserializing (Option (CryptoKey κ)) := do
  let _ ← readUInt32
  readCryptoKey platform

end WebKit.WebCore
