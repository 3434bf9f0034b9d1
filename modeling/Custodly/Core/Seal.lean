import Custodly.Host
import Custodly.Library.Framing

/-! Sealing a deposit (`custodly-core/src/seal.rs`).  The sealing and the opening side each
derive the key on their own; in a symbolic reading of the primitives they agree exactly
for the intended recipient and project. -/
namespace Custodly.Core
open Library.Strings Library.Interaction Library.Framing Host

def asBytes (s : Text) : Bytes := s.flatMap String.utf8EncodeChar

def fromUtf8 (bytes : Bytes) : Option Text := bytes.toByteArray.utf8Decode?.map Array.toList

@[simp] theorem fromUtf8_asBytes (s : Text) : fromUtf8 (asBytes s) = some s := by
  have hdecode : (asBytes s).toByteArray.utf8Decode? = some s.toArray :=
    List.utf8Decode?_utf8Encode
  simp [fromUtf8, hdecode]

theorem asBytes_injective : Function.Injective asBytes := by
  intro s s' h
  have := fromUtf8_asBytes s
  rwa [h, fromUtf8_asBytes, Option.some.injEq, eq_comm] at this

/-- What the crates for X25519, HKDF-SHA256, XChaCha20-Poly1305 and hex compute. -/
structure Crypto (Key Cipher : Type) where
  /-- `PublicKey::from(&StaticSecret)` -/
  publicKey : Octets 32 → Octets 32
  diffieHellman : (secret publicKey : Octets 32) → Octets 32
  expand : (salt inputKey info : Bytes) → Option Key
  newFromSlice : Key → Option Cipher
  encrypt : Cipher → (nonce : Octets 24) → (aad msg : Bytes) → Option Bytes
  decrypt : Cipher → (nonce : Octets 24) → (aad msg : Bytes) → Option Bytes
  hexEncode : Bytes → Text
  hexDecode : Text → Except Text Bytes

variable {T Key Cipher : Type}

def hkdfInfo : Text := "ferryman-secret/v1".toList
def ingestionIdentityName : Text := "custodly-ingestion".toList

def depositAad (projectId : Text) : Bytes :=
  asBytes (contractVersion ++ '\n' :: (ingestionIdentityName ++ '\n' :: projectId))

theorem depositAad_injective : Function.Injective depositAad := by
  intro p q h
  simpa using asBytes_injective h

inductive SealError where
  | emptyValue
  | publicKeyHex (cause : Text)
  | publicKeyLength
  | sealKey
  | derivedKey
  | sealing
  deriving DecidableEq, Repr

def SealError.message : SealError → Text
  | .emptyValue => "refusing to seal an empty value".toList
  | .publicKeyHex _ => "public key is not valid hex".toList
  | .publicKeyLength => "public key is not 32 bytes".toList
  | .sealKey => "could not derive the seal key".toList
  | .derivedKey => "invalid derived key".toList
  | .sealing => "sealing failed".toList

def toOctets (n : Nat) (bytes : Bytes) : Option (Octets n) :=
  if h : bytes.length = n then some ⟨bytes, h⟩ else none

def hexDecode32 (crypto : Crypto Key Cipher) (encoded : Text) : Except SealError (Octets 32) :=
  match crypto.hexDecode encoded with
  | .error cause => .error (.publicKeyHex cause)
  | .ok bytes =>
      match toOctets 32 bytes with
      | none => .error .publicKeyLength
      | some octets => .ok octets

/-- The salt holds the ephemeral key first, the recipient's second, on either side. -/
def saltOf (ephemeralPublic recipientPublic : Octets 32) : Bytes :=
  ephemeralPublic.toList ++ recipientPublic.toList

def cipherFor (crypto : Crypto Key Cipher) (ephemeral ephemeralPublic recipientPublic : Octets 32) :
    Except SealError Cipher :=
  let shared := crypto.diffieHellman ephemeral recipientPublic
  match crypto.expand (saltOf ephemeralPublic recipientPublic) shared.toList
      (asBytes hkdfInfo) with
  | none => .error .sealKey
  | some key =>
      match crypto.newFromSlice key with
      | none => .error .derivedKey
      | some cipher => .ok cipher

def sealForIngestion (crypto : Crypto Key Cipher) (recipientPublicHex : Text) (aad : Bytes)
    (value : Text) : Action T SealError SealedSecret :=
  if value = [] then throw .emptyValue
  else do
    let recipientPublic ← attempt (hexDecode32 crypto recipientPublicHex)
    let ephemeral ← call (.randomBytes 32)
    let ephemeralPublic := crypto.publicKey ephemeral
    let cipher ← attempt (cipherFor crypto ephemeral ephemeralPublic recipientPublic)
    let nonce ← call (.randomBytes 24)
    match crypto.encrypt cipher nonce aad (asBytes value) with
    | none => throw .sealing
    | some ciphertext => pure {
        ephemeralPublicHex := crypto.hexEncode ephemeralPublic.toList
        nonceHex := crypto.hexEncode nonce.toList
        ciphertextHex := crypto.hexEncode ciphertext }

inductive OpenError where
  | ephemeral (error : SealError)
  | nonceHex (cause : Text)
  | nonceLength
  | ciphertextHex (cause : Text)
  | decrypt
  | notUtf8
  /-- `unwrap` on a key that could not be derived. -/
  | panicked
  deriving DecidableEq, Repr

def hexDecode24 (crypto : Crypto Key Cipher) (encoded : Text) : Except OpenError (Octets 24) :=
  match crypto.hexDecode encoded with
  | .error cause => .error (.nonceHex cause)
  | .ok bytes =>
      match toOctets 24 bytes with
      | none => .error .nonceLength
      | some octets => .ok octets

def openForTests (crypto : Crypto Key Cipher) (recipientSecret : Octets 32)
    (sealed : SealedSecret) (aad : Bytes) : Except OpenError Text := do
  let ephemeralPublic ← (hexDecode32 crypto sealed.ephemeralPublicHex).mapError .ephemeral
  let recipientPublic := crypto.publicKey recipientSecret
  let shared := crypto.diffieHellman recipientSecret ephemeralPublic
  match (crypto.expand (saltOf ephemeralPublic recipientPublic) shared.toList
      (asBytes hkdfInfo)).bind crypto.newFromSlice with
  | none => .error .panicked
  | some cipher => do
      let nonce ← hexDecode24 crypto sealed.nonceHex
      let ciphertext ← (crypto.hexDecode sealed.ciphertextHex).mapError .ciphertextHex
      match crypto.decrypt cipher nonce aad ciphertext with
      | none => .error .decrypt
      | some plaintext =>
          match fromUtf8 plaintext with
          | none => .error .notUtf8
          | some value => .ok value

def sealWith (crypto : Crypto Key Cipher) (recipientPublic ephemeral : Octets 32)
    (nonce : Octets 24) (aad : Bytes) (value : Text) : Except SealError SealedSecret :=
  match cipherFor crypto ephemeral (crypto.publicKey ephemeral) recipientPublic with
  | .error e => .error e
  | .ok cipher =>
      match crypto.encrypt cipher nonce aad (asBytes value) with
      | none => .error .sealing
      | some ciphertext => .ok {
          ephemeralPublicHex := crypto.hexEncode (crypto.publicKey ephemeral).toList
          nonceHex := crypto.hexEncode nonce.toList
          ciphertextHex := crypto.hexEncode ciphertext }

theorem run_sealForIngestion {crypto : Crypto Key Cipher} {recipientPublicHex value : Text}
    {recipientPublic ephemeral : Octets 32} {nonce : Octets 24} {aad : Bytes}
    {sealed : SealedSecret} (hvalue : value ≠ [])
    (hpublic : hexDecode32 crypto recipientPublicHex = .ok recipientPublic)
    (hsealed : sealWith crypto recipientPublic ephemeral nonce aad value = .ok sealed) :
    Run (sealForIngestion crypto recipientPublicHex aad value : Action T _ _).run
      [⟨.randomBytes 32, ephemeral⟩, ⟨.randomBytes 24, nonce⟩] (some (.ok sealed)) := by
  unfold sealForIngestion
  rw [if_neg hvalue, hpublic, run_attempt_ok_bind, run_call_bind]
  apply @Run.ask _ (Reply T) _ (.randomBytes 32) _ ephemeral
  unfold sealWith at hsealed
  cases hcipher : cipherFor crypto ephemeral (crypto.publicKey ephemeral) recipientPublic with
  | error e => simp [hcipher] at hsealed
  | ok cipher =>
    simp only [hcipher, run_attempt_ok_bind, run_call_bind]
    apply @Run.ask _ (Reply T) _ (.randomBytes 24) _ nonce
    cases hencrypt : crypto.encrypt cipher nonce aad (asBytes value) with
    | none => simp [hcipher, hencrypt] at hsealed
    | some ciphertext =>
      simp only [hcipher, hencrypt, Except.ok.injEq] at hsealed
      rw [← hsealed]
      exact .done _

/-- Agreement commutes, distinct secrets have distinct public keys, derivation is injective,
and decryption succeeds exactly under the key, the nonce and the associated data of the
encryption. -/
structure Symbolic (crypto : Crypto Key Cipher) : Prop where
  agree : ∀ a b, crypto.diffieHellman a (crypto.publicKey b) =
    crypto.diffieHellman b (crypto.publicKey a)
  public_injective : Function.Injective crypto.publicKey
  expand_total : ∀ salt inputKey info,
    ∃ key cipher, crypto.expand salt inputKey info = some key ∧
      crypto.newFromSlice key = some cipher
  expand_injective : ∀ salt inputKey info salt' inputKey' info' cipher,
    (crypto.expand salt inputKey info).bind crypto.newFromSlice = some cipher →
    (crypto.expand salt' inputKey' info').bind crypto.newFromSlice = some cipher →
      salt = salt' ∧ inputKey = inputKey' ∧ info = info'
  encrypt_total : ∀ cipher nonce aad msg,
    ∃ ciphertext, crypto.encrypt cipher nonce aad msg = some ciphertext
  decrypt_iff : ∀ cipher nonce aad msg ciphertext cipher' nonce' aad' msg',
    crypto.encrypt cipher nonce aad msg = some ciphertext →
      (crypto.decrypt cipher' nonce' aad' ciphertext = some msg' ↔
        cipher' = cipher ∧ nonce' = nonce ∧ aad' = aad ∧ msg' = msg)
  hexDecode_hexEncode : ∀ bytes, crypto.hexDecode (crypto.hexEncode bytes) = .ok bytes

@[simp] theorem toOctets_toList {n : Nat} (octets : Octets n) :
    toOctets n octets.toList = some octets := by
  unfold toOctets
  rw [dif_pos octets.toList_length]
  rfl

section Symbolic

variable {crypto : Crypto Key Cipher}

theorem Symbolic.hexDecode32_hexEncode (laws : Symbolic crypto) (octets : Octets 32) :
    hexDecode32 crypto (crypto.hexEncode octets.toList) = .ok octets := by
  simp [hexDecode32, laws.hexDecode_hexEncode]

theorem Symbolic.hexDecode24_hexEncode (laws : Symbolic crypto) (octets : Octets 24) :
    hexDecode24 crypto (crypto.hexEncode octets.toList) = .ok octets := by
  simp [hexDecode24, laws.hexDecode_hexEncode]

theorem Symbolic.exists_sealWith (laws : Symbolic crypto) (recipientPublic ephemeral : Octets 32)
    (nonce : Octets 24) (aad : Bytes) (value : Text) :
    ∃ cipher ciphertext,
      (crypto.expand (saltOf (crypto.publicKey ephemeral) recipientPublic)
        (crypto.diffieHellman ephemeral recipientPublic).toList (asBytes hkdfInfo)).bind
          crypto.newFromSlice = some cipher ∧
      crypto.encrypt cipher nonce aad (asBytes value) = some ciphertext ∧
      sealWith crypto recipientPublic ephemeral nonce aad value = .ok {
        ephemeralPublicHex := crypto.hexEncode (crypto.publicKey ephemeral).toList
        nonceHex := crypto.hexEncode nonce.toList
        ciphertextHex := crypto.hexEncode ciphertext } := by
  obtain ⟨key, cipher, hkey, hcipher⟩ := laws.expand_total
    (saltOf (crypto.publicKey ephemeral) recipientPublic)
    (crypto.diffieHellman ephemeral recipientPublic).toList (asBytes hkdfInfo)
  obtain ⟨ciphertext, hencrypt⟩ := laws.encrypt_total cipher nonce aad (asBytes value)
  refine ⟨cipher, ciphertext, ?_, hencrypt, ?_⟩
  · rw [hkey, Option.bind_some, hcipher]
  · simp [sealWith, cipherFor, hkey, hcipher, hencrypt]

theorem Symbolic.openForTests_eq (laws : Symbolic crypto) (secret ephemeralPublic : Octets 32)
    (nonce : Octets 24) (ciphertext aad : Bytes) {cipher : Cipher}
    (hcipher : (crypto.expand (saltOf ephemeralPublic (crypto.publicKey secret))
      (crypto.diffieHellman secret ephemeralPublic).toList (asBytes hkdfInfo)).bind
        crypto.newFromSlice = some cipher) :
    openForTests crypto secret
        ⟨crypto.hexEncode ephemeralPublic.toList, crypto.hexEncode nonce.toList,
          crypto.hexEncode ciphertext⟩ aad =
      match crypto.decrypt cipher nonce aad ciphertext with
      | none => .error .decrypt
      | some plaintext =>
          match fromUtf8 plaintext with
          | none => .error .notUtf8
          | some value => .ok value := by
  unfold openForTests
  simp only [laws.hexDecode32_hexEncode, laws.hexDecode24_hexEncode, laws.hexDecode_hexEncode,
    Except.mapError, bind, Except.bind] at hcipher ⊢
  rw [hcipher]

theorem saltOf_injective {a b c d : Octets 32} (h : saltOf a b = saltOf c d) :
    a = c ∧ b = d := by
  unfold saltOf at h
  have hlength : a.toList.length = c.toList.length := by simp
  obtain ⟨hfirst, hsecond⟩ := List.append_inj h hlength
  exact ⟨List.Vector.eq a c hfirst, List.Vector.eq b d hsecond⟩

/-- A seal opens for the secret behind the recipient's key and the data it was bound to. -/
theorem Symbolic.opens_iff (laws : Symbolic crypto) {secret ephemeral : Octets 32}
    {nonce : Octets 24} {aad : Bytes} {value : Text} {sealed : SealedSecret}
    (hsealed : sealWith crypto (crypto.publicKey secret) ephemeral nonce aad value = .ok sealed)
    (secret' : Octets 32) (aad' : Bytes) :
    openForTests crypto secret' sealed aad' =
      if secret' = secret ∧ aad' = aad then .ok value else .error .decrypt := by
  obtain ⟨cipher, ciphertext, hcipher, hencrypt, hsealed'⟩ :=
    laws.exists_sealWith (crypto.publicKey secret) ephemeral nonce aad value
  rw [hsealed', Except.ok.injEq] at hsealed
  obtain ⟨key', cipher', hkey', hnew'⟩ := laws.expand_total
    (saltOf (crypto.publicKey ephemeral) (crypto.publicKey secret'))
    (crypto.diffieHellman secret' (crypto.publicKey ephemeral)).toList (asBytes hkdfInfo)
  have hcipher' : (crypto.expand (saltOf (crypto.publicKey ephemeral) (crypto.publicKey secret'))
      (crypto.diffieHellman secret' (crypto.publicKey ephemeral)).toList
      (asBytes hkdfInfo)).bind crypto.newFromSlice = some cipher' := by
    rw [hkey', Option.bind_some, hnew']
  rw [← hsealed, laws.openForTests_eq _ _ _ _ _ hcipher']
  have hdecrypts (plaintext : Bytes) :
      crypto.decrypt cipher' nonce aad' ciphertext = some plaintext ↔
        (secret' = secret ∧ aad' = aad) ∧ plaintext = asBytes value := by
    rw [laws.decrypt_iff _ _ _ _ _ _ _ _ _ hencrypt]
    constructor
    · rintro ⟨rfl, -, haad, hplain⟩
      obtain ⟨hsalt, -, -⟩ := laws.expand_injective _ _ _ _ _ _ _ hcipher' hcipher
      exact ⟨⟨laws.public_injective (saltOf_injective hsalt).2, haad⟩, hplain⟩
    · rintro ⟨⟨rfl, haad⟩, hplain⟩
      -- agreement commutes, so the opener's cipher is the sealer's
      rw [laws.agree secret' ephemeral, hcipher, Option.some.injEq] at hcipher'
      exact ⟨hcipher'.symm, rfl, haad, hplain⟩
  by_cases h : secret' = secret ∧ aad' = aad
  · rw [if_pos h, (hdecrypts _).2 ⟨h, rfl⟩]
    simp
  · have hnone : crypto.decrypt cipher' nonce aad' ciphertext = none :=
      Option.eq_none_iff_forall_ne_some.2 fun plaintext hplain => h ((hdecrypts _).1 hplain).1
    rw [if_neg h, hnone]

/-- A deposit opens for the intended recipient and project, and in no other case. -/
theorem sealed_deposit_opens_exactly (crypto : Crypto Key Cipher) (laws : Symbolic crypto)
    (secret secret' : Octets 32) (project project' value : Text) (hvalue : value ≠ [])
    (ephemeral : Octets 32) (nonce : Octets 24) :
    ∃ sealed,
      Run (sealForIngestion crypto (crypto.hexEncode (crypto.publicKey secret).toList)
          (depositAad project) value : Action T _ _).run
        [⟨.randomBytes 32, ephemeral⟩, ⟨.randomBytes 24, nonce⟩] (some (.ok sealed)) ∧
      openForTests crypto secret' sealed (depositAad project') =
        if secret' = secret ∧ project = project' then .ok value else .error .decrypt := by
  obtain ⟨cipher, ciphertext, -, -, hsealed⟩ :=
    laws.exists_sealWith (crypto.publicKey secret) ephemeral nonce (depositAad project) value
  refine ⟨_, run_sealForIngestion hvalue (laws.hexDecode32_hexEncode _) hsealed, ?_⟩
  have hsame : depositAad project' = depositAad project ↔ project = project' :=
    depositAad_injective.eq_iff.trans eq_comm
  rw [laws.opens_iff hsealed]
  simp only [hsame]

end Symbolic

def hexDigits : List Char := "0123456789abcdef".toList

def hexByte (byte : UInt8) : Text :=
  [hexDigits.getD (byte.toNat / 16) '0', hexDigits.getD (byte.toNat % 16) '0']

def hexValue (c : Char) : Option Nat :=
  let index := hexDigits.idxOf c.toLower
  if index < 16 then some index else none

def readHex : Text → Option Bytes
  | [] => some []
  | [_] => none
  | high :: low :: rest => do
      let h ← hexValue high
      let l ← hexValue low
      let bytes ← readHex rest
      some (UInt8.ofNat (16 * h + l) :: bytes)

theorem hexValue_hexDigits : ∀ n < 16, hexValue (hexDigits.getD n '0') = some n := by decide

theorem readHex_hexByte (byte : UInt8) (rest : Text) :
    readHex (hexByte byte ++ rest) = (readHex rest).map (byte :: ·) := by
  have hlt := byte.toNat_lt
  have hhigh := hexValue_hexDigits (byte.toNat / 16) (by omega)
  have hlow := hexValue_hexDigits (byte.toNat % 16) (by omega)
  have hbyte : UInt8.ofNat (16 * (byte.toNat / 16) + byte.toNat % 16) = byte := by
    rw [Nat.div_add_mod, UInt8.ofNat_toNat]
  simp only [hexByte, List.cons_append, List.nil_append, readHex, hhigh, hlow]
  cases readHex rest with
  | none => rfl
  | some bytes => simp only [Option.bind_eq_bind, Option.bind_some, hbyte, Option.map_some]

theorem readHex_flatMap_hexByte (bytes : Bytes) : readHex (bytes.flatMap hexByte) = some bytes := by
  induction bytes with
  | nil => rfl
  | cons byte rest ih => rw [List.flatMap_cons, readHex_hexByte, ih, Option.map_some]

abbrev SymbolicKey := Bytes × Bytes × Bytes

def sealHeader (key : SymbolicKey) (nonce : Octets 24) (aad : Bytes) : Bytes :=
  frames [key.1, key.2.1, key.2.2, nonce.toList, aad]

/-- A derived key is what it was derived from, and a ciphertext the message behind all that
it was bound to. -/
def symbolicCrypto : Crypto SymbolicKey SymbolicKey where
  publicKey := id
  diffieHellman secret publicKey := List.Vector.ofFn fun i => secret.get i ^^^ publicKey.get i
  expand salt inputKey info := some (salt, inputKey, info)
  newFromSlice := some
  encrypt key nonce aad msg := some (sealHeader key nonce aad ++ msg)
  decrypt key nonce aad msg := msg.dropPrefix? (sealHeader key nonce aad)
  hexEncode bytes := bytes.flatMap hexByte
  hexDecode s := (readHex s).elim (.error "Odd number of digits".toList) .ok

theorem sealHeader_append_inj {key key' : SymbolicKey} {nonce nonce' : Octets 24}
    {aad aad' msg msg' : Bytes}
    (h : sealHeader key nonce aad ++ msg = sealHeader key' nonce' aad' ++ msg') :
    key = key' ∧ nonce = nonce' ∧ aad = aad' ∧ msg = msg' := by
  unfold sealHeader at h
  obtain ⟨hparts, hmsg⟩ := frames_append_inj (by rfl) h
  simp only [List.cons.injEq, and_true] at hparts
  obtain ⟨hsalt, hinput, hinfo, hnonce, haad⟩ := hparts
  exact ⟨Prod.ext hsalt (Prod.ext hinput hinfo), List.Vector.eq _ _ hnonce, haad, hmsg⟩

theorem symbolicCrypto_laws : Symbolic symbolicCrypto where
  agree a b := by
    apply List.Vector.ext
    intro i
    simp [symbolicCrypto, UInt8.xor_comm]
  public_injective := fun _ _ h => h
  expand_total _ _ _ := ⟨_, _, rfl, rfl⟩
  expand_injective salt inputKey info salt' inputKey' info' cipher h h' := by
    simp only [symbolicCrypto, Option.bind_some, Option.some.injEq] at h h'
    rw [← h', Prod.mk.injEq, Prod.mk.injEq] at h
    exact h
  encrypt_total _ _ _ _ := ⟨_, rfl⟩
  decrypt_iff cipher nonce aad msg ciphertext cipher' nonce' aad' msg' h := by
    simp only [symbolicCrypto, Option.some.injEq] at h ⊢
    rw [← h, List.dropPrefix?_eq_some_iff]
    refine ⟨fun ⟨front, heq, hfront⟩ => ?_, fun ⟨hkey, hnonce, haad, hmsg⟩ => ?_⟩
    · rw [eq_of_beq hfront] at heq
      obtain ⟨hkey, hnonce, haad, hmsg⟩ := sealHeader_append_inj heq
      exact ⟨hkey.symm, hnonce.symm, haad.symm, hmsg.symm⟩
    · exact ⟨_, by rw [hkey, hnonce, haad, hmsg], beq_self_eq_true _⟩
  hexDecode_hexEncode bytes := by simp [symbolicCrypto, readHex_flatMap_hexByte]

theorem sealed_deposit_opens_exactly_acme :
    ∃ sealed : SealedSecret,
      Run (sealForIngestion symbolicCrypto
          (symbolicCrypto.hexEncode (symbolicCrypto.publicKey (.replicate 32 1)).toList)
          (depositAad "acme".toList) "sk-live-abc123".toList :
            Action SampleInstant _ _).run
        [⟨.randomBytes 32, .replicate 32 7⟩, ⟨.randomBytes 24, .replicate 24 9⟩]
        (some (.ok sealed)) ∧
      openForTests symbolicCrypto (.replicate 32 1) sealed (depositAad "acme".toList) =
        if (List.Vector.replicate 32 1 : Octets 32) = .replicate 32 1 ∧
            "acme".toList = "acme".toList then .ok "sk-live-abc123".toList
        else .error .decrypt :=
  sealed_deposit_opens_exactly symbolicCrypto symbolicCrypto_laws _ _ _ _ _ (by decide) _ _

end Custodly.Core
