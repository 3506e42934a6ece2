import ConfigDb.Cipher.Cbc
import ConfigDb.Service.Configuration

/-!
# Pooled encrypters

`db::Encrypter` keeps one cipher context for each direction, with a flag that says whether the
context has to be initialised again before it is used.  The encrypters of a pool are created from
one configuration, and a value that one of them wrote is read by another.

The functions of OpenSSL are parameters.  What they are relied on for is `OpenSSL.IsAes256Cbc`: a
context that was initialised, also again, encrypts and decrypts in one shot as `Cbc` does; nothing
is known of a context that was used and not initialised again.

## Main definitions

* `OpenSSL` : the functions of OpenSSL that are called.
* `Encrypter`, `Encrypter.create`, `Encrypter.encrypt`, `Encrypter.decrypt` : the class.
* `Encrypter.Ready` : what holds of an encrypter between two calls.
* `Encrypter.run` : a pool of encrypters after some calls.

## Main results

* `Encrypter.Ready.run` : the encrypters of a pool are ready after every history.
* `decrypt_encrypt_pooled` : any encrypter reads what any other wrote.
-/

namespace ConfigDb

/-- The two directions of a cipher context. -/
inductive Direction
  | encrypt | decrypt
  deriving DecidableEq

/-- The functions of OpenSSL that the encrypters call, over ciphers `κ` and contexts `σ`.  Where the
names of the functions differ in the direction, this is an argument. -/
structure OpenSSL (κ σ : Type) where
  /-- `EVP_get_cipherbyname`. -/
  cipherByName : Bytes → Option κ
  /-- `EVP_BytesToKey` with `EVP_sha512`: the key and the initialisation vector that are derived
  from a salt and a secret in a number of rounds. -/
  bytesToKey : κ → Bytes → Bytes → Int32 → Bytes × Bytes
  /-- A new context, initialised by `EVP_EncryptInit_ex` with a cipher, a key and a vector. -/
  init : Direction → κ → Bytes → Bytes → σ
  /-- `EVP_EncryptInit_ex` with null arguments. -/
  reinit : Direction → σ → σ
  /-- `EVP_CIPHER_CTX_block_size`. -/
  blockSize : σ → ℤ
  /-- `EVP_EncryptUpdate` with an input and its length: the output, if it does not fail. -/
  update : Direction → σ → Bytes → ℤ → Option Bytes × σ
  /-- `EVP_EncryptFinal_ex`: the output, if it does not fail. -/
  final : Direction → σ → Option Bytes × σ

variable {κ σ ι : Type}

/-- What `Update` and `Final` put out in this order, if they do not fail. -/
def OpenSSL.oneShot (o : OpenSSL κ σ) (d : Direction) (context : σ) (value : Bytes) (inl : ℤ) :
    Option Bytes :=
  match o.update d context value inl with
  | (none, _) => none
  | (some out, context) => (o.final d context).1.map (out ++ ·)

/-! ### The encrypter -/

/-- The conversion of a number to `int`. -/
def asInt (n : ℤ) : ℤ := n.bmod (2 ^ 32)

theorem asInt_natCast {n : ℕ} (h : n < 2 ^ 31) : asInt n = n :=
  Int.bmod_eq_of_le_mul_two (by omega) (by omega)

/-- `db::Encrypter`; the strings that only the constructor uses are left out. -/
structure Encrypter (σ : Type) where
  /-- The context that encrypts. -/
  encryptingContext : σ
  /-- The context that decrypts. -/
  decryptingContext : σ
  /-- The context that encrypts has been used. -/
  refreshEncryptContext : Bool := false
  /-- The context that decrypts has been used. -/
  refreshDecryptContext : Bool := false

namespace Encrypter

variable (o : OpenSSL κ σ)

/-- The constructor with `initContext`; `none` for an `SSLException`. -/
def create (conf : Configuration.Encryption) (cryptKey : Bytes) : Option (Encrypter σ) :=
  match o.cipherByName (text "aes-256-cbc") with
  | none => none
  | some cipher =>
    let (key, iv) := o.bytesToKey cipher conf.salt (cryptKey ++ [0]) conf.rounds
    some { encryptingContext := o.init .encrypt cipher key iv
           decryptingContext := o.init .decrypt cipher key iv }

/-- The closure `execute` of both functions, with the size of the buffer and the length of the input
as numbers of 32 bits.  A negative size of the buffer makes the constructor of the string throw,
which is `none`. -/
def execute (d : Direction) (size outlen : ℤ) (context : σ) (refresh : Bool) (value : Bytes) :
    Option Bytes × σ × Bool :=
  if size < 0 then (none, context, refresh)
  else
    let context := if refresh then o.reinit d context else context
    match o.update d context value outlen with
    | (none, context) => (some [], context, true)
    | (some out, context) =>
      match o.final d context with
      | (none, context) => (some [], context, true)
      | (some last, context) => (some (out ++ last), context, true)

/-- `Encrypter::encrypt`. -/
def encrypt (value : Bytes) (e : Encrypter σ) : Option Bytes × Encrypter σ :=
  if value = [] then (some [], e)
  else
    let outlen := asInt value.length
    let size := asInt (outlen + o.blockSize e.encryptingContext)
    let r := execute o .encrypt size outlen e.encryptingContext e.refreshEncryptContext value
    (r.1, { e with encryptingContext := r.2.1, refreshEncryptContext := r.2.2 })

/-- `Encrypter::decrypt`. -/
def decrypt (sec : Bytes) (e : Encrypter σ) : Option Bytes × Encrypter σ :=
  if sec = [] then (some [], e)
  else
    let outlen := asInt sec.length
    let r := execute o .decrypt outlen outlen e.decryptingContext e.refreshDecryptContext sec
    (r.1, { e with decryptingContext := r.2.1, refreshDecryptContext := r.2.2 })

/-- A call of an encrypter. -/
inductive Op
  | encrypt (value : Bytes)
  | decrypt (sec : Bytes)

/-- Make a call. -/
def perform (e : Encrypter σ) : Op → Option Bytes × Encrypter σ
  | .encrypt value => e.encrypt o value
  | .decrypt sec => e.decrypt o sec

/-- The encrypters of a pool after some calls, each of which is made on one of them. -/
def run [DecidableEq ι] (pool : ι → Encrypter σ) (calls : List (ι × Op)) : ι → Encrypter σ :=
  calls.foldl (fun pool c => Function.update pool c.1 ((pool c.1).perform o c.2).2) pool

end Encrypter

/-! ### What OpenSSL is relied on for -/

/-- The cipher `aes-256-cbc` is `Cbc` with a permutation of the blocks of 16 bytes for each key,
from a context that is fresh.  A context is fresh when it was initialised, and when it was
initialised again after whatever was done with it. -/
structure OpenSSL.IsAes256Cbc (o : OpenSSL κ σ) (aes : Bytes → Equiv.Perm (Cbc.Block 16)) :
    Prop where
  /-- The size of a block. -/
  blockSize : ∀ s, o.blockSize s = 16
  /-- Initialising again what is fresh changes nothing. -/
  reinit_init : ∀ d cipher key iv, o.reinit d (o.init d cipher key iv) = o.init d cipher key iv
  /-- What an update leaves behind is gone after the next initialisation. -/
  reinit_update : ∀ d s value inl, o.reinit d (o.update d s value inl).2 = o.reinit d s
  /-- What the end of a message leaves behind is gone after the next initialisation. -/
  reinit_final : ∀ d s, o.reinit d (o.final d s).2 = o.reinit d s
  /-- A fresh context encrypts. -/
  encrypt : ∀ cipher, o.cipherByName (text "aes-256-cbc") = some cipher → ∀ key iv value,
    value ≠ [] → value.length + 16 < 2 ^ 31 →
    o.oneShot .encrypt (o.init .encrypt cipher key iv) value value.length =
      some (Cbc.encipher (aes key) (Cbc.block 16 iv) value)
  /-- A fresh context decrypts what has a padding. -/
  decrypt : ∀ cipher, o.cipherByName (text "aes-256-cbc") = some cipher → ∀ key iv sec value,
    sec.length < 2 ^ 31 → Cbc.decipher (aes key) (Cbc.block 16 iv) sec = some value →
    o.oneShot .decrypt (o.init .decrypt cipher key iv) sec sec.length = some value

/-! ### The cipher -/

/-- The cipher of two functions that may fail: a failure is an empty string, as it stands for the
empty value. -/
def Cipher.ofPartial (encrypt decrypt : Bytes → Option Bytes) : Cipher where
  encrypt value := if value = [] then [] else (encrypt value).getD []
  decrypt sec := if sec = [] then [] else (decrypt sec).getD []

/-- The cipher of OpenSSL with a key and a vector: each value in one shot. -/
def Cipher.ofOpenSSL (o : OpenSSL κ σ) (cipher : κ) (key iv : Bytes) : Cipher :=
  Cipher.ofPartial
    (fun value => o.oneShot .encrypt (o.init .encrypt cipher key iv) value value.length)
    (fun sec => o.oneShot .decrypt (o.init .decrypt cipher key iv) sec sec.length)

/-! ### Encrypters are ready between calls -/

/-- A context is `fresh` once it is initialised again, and it is so already unless it was used. -/
def OpenSSL.Refreshable (o : OpenSSL κ σ) (d : Direction) (fresh context : σ) (refresh : Bool) :
    Prop :=
  o.reinit d context = fresh ∧ (refresh = false → context = fresh)

variable {o : OpenSSL κ σ} {aes : Bytes → Equiv.Perm (Cbc.Block 16)} {cipher : κ} {key iv : Bytes}

namespace Encrypter

theorem execute_fst (d : Direction) {size : ℤ} (hsize : 0 ≤ size) (outlen : ℤ) {fresh context : σ}
    {refresh : Bool} (h : o.Refreshable d fresh context refresh) (value : Bytes) :
    (execute o d size outlen context refresh value).1 =
      some ((o.oneShot d fresh value outlen).getD []) := by
  have hcontext : (if refresh then o.reinit d context else context) = fresh := by
    cases refresh with
    | true => exact h.1
    | false => exact h.2 rfl
  simp only [execute, if_neg (not_lt.2 hsize), hcontext, OpenSSL.oneShot]
  rcases o.update d fresh value outlen with ⟨_ | out, s⟩
  · rfl
  · simp only
    rcases o.final d s with ⟨_ | last, s'⟩ <;> rfl

theorem execute_refreshable (hlaw : o.IsAes256Cbc aes) (d : Direction) (size outlen : ℤ)
    {fresh context : σ} {refresh : Bool} (hfresh : o.reinit d fresh = fresh)
    (h : o.Refreshable d fresh context refresh) (value : Bytes) :
    o.Refreshable d fresh (execute o d size outlen context refresh value).2.1
      (execute o d size outlen context refresh value).2.2 := by
  have hcontext : (if refresh then o.reinit d context else context) = fresh := by
    cases refresh with
    | true => exact h.1
    | false => exact h.2 rfl
  have hupdate := hlaw.reinit_update d fresh value outlen
  rw [hfresh] at hupdate
  rcases lt_or_ge size 0 with hsize | hsize
  · simp only [execute, if_pos hsize]
    exact h
  · simp only [execute, if_neg (not_lt.2 hsize), hcontext]
    rcases hu : o.update d fresh value outlen with ⟨_ | out, s⟩ <;> rw [hu] at hupdate
    · exact ⟨hupdate, nofun⟩
    · have hfinal := (hlaw.reinit_final d s).trans hupdate
      simp only
      rcases hf : o.final d s with ⟨_ | last, s'⟩ <;> rw [hf] at hfinal
      · exact ⟨hfinal, nofun⟩
      · exact ⟨hfinal, nofun⟩

/-- What holds of an encrypter between two calls: both of its contexts can be refreshed. -/
structure Ready (o : OpenSSL κ σ) (cipher : κ) (key iv : Bytes) (e : Encrypter σ) : Prop where
  /-- The context that encrypts. -/
  encrypting : o.Refreshable .encrypt (o.init .encrypt cipher key iv) e.encryptingContext
    e.refreshEncryptContext
  /-- The context that decrypts. -/
  decrypting : o.Refreshable .decrypt (o.init .decrypt cipher key iv) e.decryptingContext
    e.refreshDecryptContext

variable {e : Encrypter σ}

theorem exists_ready_create (hlaw : o.IsAes256Cbc aes) {conf : Configuration.Encryption}
    {cryptKey : Bytes} {e₀ : Encrypter σ} (he₀ : create o conf cryptKey = some e₀) :
    ∃ cipher key iv, o.cipherByName (text "aes-256-cbc") = some cipher ∧
      ∀ e, create o conf cryptKey = some e → Ready o cipher key iv e := by
  unfold create at he₀ ⊢
  cases hcipher : o.cipherByName (text "aes-256-cbc") with
  | none =>
    rw [hcipher] at he₀
    cases he₀
  | some cipher =>
    refine ⟨cipher, (o.bytesToKey cipher conf.salt (cryptKey ++ [0]) conf.rounds).1,
      (o.bytesToKey cipher conf.salt (cryptKey ++ [0]) conf.rounds).2, rfl, fun e he => ?_⟩
    obtain rfl := Option.some.inj he
    exact ⟨⟨hlaw.reinit_init .., fun _ => rfl⟩, ⟨hlaw.reinit_init .., fun _ => rfl⟩⟩

theorem Ready.withEncrypting (h : Ready o cipher key iv e) {context : σ} {refresh : Bool}
    (hc : o.Refreshable .encrypt (o.init .encrypt cipher key iv) context refresh) :
    Ready o cipher key iv
      { e with encryptingContext := context, refreshEncryptContext := refresh } :=
  ⟨hc, h.decrypting⟩

theorem Ready.withDecrypting (h : Ready o cipher key iv e) {context : σ} {refresh : Bool}
    (hc : o.Refreshable .decrypt (o.init .decrypt cipher key iv) context refresh) :
    Ready o cipher key iv
      { e with decryptingContext := context, refreshDecryptContext := refresh } :=
  ⟨h.encrypting, hc⟩

theorem Ready.encrypt (hlaw : o.IsAes256Cbc aes) (h : Ready o cipher key iv e) (value : Bytes) :
    Ready o cipher key iv (e.encrypt o value).2 := by
  rcases eq_or_ne value [] with rfl | hv
  · exact h
  · simp only [Encrypter.encrypt, if_neg hv]
    exact h.withEncrypting
      (execute_refreshable hlaw .encrypt _ _ (hlaw.reinit_init ..) h.encrypting value)

theorem Ready.decrypt (hlaw : o.IsAes256Cbc aes) (h : Ready o cipher key iv e) (sec : Bytes) :
    Ready o cipher key iv (e.decrypt o sec).2 := by
  rcases eq_or_ne sec [] with rfl | hs
  · exact h
  · simp only [Encrypter.decrypt, if_neg hs]
    exact h.withDecrypting
      (execute_refreshable hlaw .decrypt _ _ (hlaw.reinit_init ..) h.decrypting sec)

/-- **Ready encrypters stay ready**, whatever is called on them. -/
theorem Ready.run [DecidableEq ι] (hlaw : o.IsAes256Cbc aes) {pool : ι → Encrypter σ}
    (h : ∀ i, Ready o cipher key iv (pool i)) (calls : List (ι × Op)) (i : ι) :
    Ready o cipher key iv (Encrypter.run o pool calls i) := by
  induction calls generalizing pool i with
  | nil => exact h i
  | cons c calls ih =>
    refine ih (fun j => ?_) i
    obtain ⟨k, op⟩ := c
    change Ready o cipher key iv (Function.update pool k ((pool k).perform o op).2 j)
    rcases eq_or_ne j k with rfl | hj
    · rw [Function.update_self]
      cases op with
      | encrypt value => exact (h j).encrypt hlaw value
      | decrypt sec => exact (h j).decrypt hlaw sec
    · rw [Function.update_of_ne hj]
      exact h j

/-! ### What ready encrypters return -/

theorem Ready.encrypt_fst (hlaw : o.IsAes256Cbc aes) (h : Ready o cipher key iv e) {value : Bytes}
    (hlen : value.length + 16 < 2 ^ 31) :
    (e.encrypt o value).1 = some ((Cipher.ofOpenSSL o cipher key iv).encrypt value) := by
  rcases eq_or_ne value [] with rfl | hv
  · rfl
  · have hsize : asInt ((value.length : ℤ) + 16) = (value.length + 16 : ℕ) := asInt_natCast hlen
    have hlen' : asInt value.length = value.length := asInt_natCast (by omega)
    simp only [Encrypter.encrypt, Cipher.ofOpenSSL, Cipher.ofPartial, if_neg hv, hlaw.blockSize,
      hlen', hsize]
    exact execute_fst .encrypt (by omega) _ h.encrypting value

theorem Ready.decrypt_fst (h : Ready o cipher key iv e) {sec : Bytes}
    (hlen : sec.length < 2 ^ 31) :
    (e.decrypt o sec).1 = some ((Cipher.ofOpenSSL o cipher key iv).decrypt sec) := by
  rcases eq_or_ne sec [] with rfl | hs
  · rfl
  · simp only [Encrypter.decrypt, Cipher.ofOpenSSL, Cipher.ofPartial, if_neg hs, asInt_natCast hlen]
    exact execute_fst .decrypt (by omega) _ h.decrypting sec

end Encrypter

namespace Cipher

theorem ofOpenSSL_encrypt (key iv : Bytes) (hlaw : o.IsAes256Cbc aes)
    (hcipher : o.cipherByName (text "aes-256-cbc") = some cipher) {value : Bytes}
    (hv : value ≠ []) (hlen : value.length + 16 < 2 ^ 31) :
    (ofOpenSSL o cipher key iv).encrypt value = Cbc.encipher (aes key) (Cbc.block 16 iv) value := by
  simp only [ofOpenSSL, ofPartial, if_neg hv, hlaw.encrypt cipher hcipher key iv value hv hlen,
    Option.getD_some]

theorem length_ofOpenSSL_encrypt (key iv : Bytes) (hlaw : o.IsAes256Cbc aes)
    (hcipher : o.cipherByName (text "aes-256-cbc") = some cipher) {value : Bytes}
    (hlen : value.length + 16 < 2 ^ 31) :
    ((ofOpenSSL o cipher key iv).encrypt value).length < 2 ^ 31 := by
  rcases eq_or_ne value [] with rfl | hv
  · exact Nat.two_pow_pos 31
  · rw [ofOpenSSL_encrypt key iv hlaw hcipher hv hlen, Cbc.length_encipher (by decide)]
    omega

/-- **Decryption undoes encryption.** -/
theorem ofOpenSSL_decrypt_encrypt (key iv : Bytes) (hlaw : o.IsAes256Cbc aes)
    (hcipher : o.cipherByName (text "aes-256-cbc") = some cipher) {value : Bytes}
    (hlen : value.length + 16 < 2 ^ 31) :
    (ofOpenSSL o cipher key iv).decrypt ((ofOpenSSL o cipher key iv).encrypt value) = value := by
  rcases eq_or_ne value [] with rfl | hv
  · rfl
  · have hshort := length_ofOpenSSL_encrypt key iv hlaw hcipher hlen
    have hsec := ofOpenSSL_encrypt key iv hlaw hcipher hv hlen
    rw [hsec] at hshort ⊢
    have hback := Cbc.decipher_encipher (by decide) (by decide) (aes key) (Cbc.block 16 iv) value
    have hne := Cbc.encipher_ne_nil (by decide) (aes key) (Cbc.block 16 iv) value
    simp only [ofOpenSSL, ofPartial, if_neg hne,
      hlaw.decrypt cipher hcipher key iv _ value hshort hback, Option.getD_some]

end Cipher

/-- **Any encrypter reads what any other wrote.**  The encrypters of a pool were created from one
configuration.  After any calls on them, one of them encrypts a value; after any further calls, one
of them decrypts the result, and this is the value. -/
theorem decrypt_encrypt_pooled [DecidableEq ι] (o : OpenSSL κ σ)
    (aes : Bytes → Equiv.Perm (Cbc.Block 16)) (hlaw : o.IsAes256Cbc aes)
    (conf : Configuration.Encryption) (pool : ι → Encrypter σ)
    (hpool : ∀ i, Encrypter.create o conf conf.secret = some (pool i))
    (before after : List (ι × Encrypter.Op)) (i j : ι) (value : Bytes)
    (hlen : value.length < 2 ^ 31 - 16) :
    ∃ sec, ((Encrypter.run o pool before i).encrypt o value).1 = some sec ∧
      ((Encrypter.run o pool (before ++ (i, .encrypt value) :: after) j).decrypt o sec).1 =
        some value := by
  obtain ⟨cipher, key, iv, hcipher, hready⟩ :=
    Encrypter.exists_ready_create hlaw (hpool i)
  have hpool' (k : ι) : Encrypter.Ready o cipher key iv (pool k) := hready _ (hpool k)
  have hlen' : value.length + 16 < 2 ^ 31 := by omega
  have hshort := Cipher.length_ofOpenSSL_encrypt key iv hlaw hcipher hlen'
  refine ⟨_, (Encrypter.Ready.run hlaw hpool' before i).encrypt_fst hlaw hlen', ?_⟩
  rw [(Encrypter.Ready.run hlaw hpool' _ j).decrypt_fst hshort,
    Cipher.ofOpenSSL_decrypt_encrypt key iv hlaw hcipher hlen']

/-! ### An instance -/

/-- A context that keeps its input until the end of the message. -/
structure BufferedContext where
  /-- The key. -/
  key : Bytes
  /-- The initialisation vector. -/
  iv : Bytes
  /-- The input so far. -/
  buffer : Bytes

/-- The functions of OpenSSL over contexts that keep their input, with a key and a vector that were
derived beforehand. -/
def OpenSSL.buffered (derived : Bytes × Bytes) (aes : Bytes → Equiv.Perm (Cbc.Block 16)) :
    OpenSSL Unit BufferedContext where
  cipherByName name := if name = text "aes-256-cbc" then some () else none
  bytesToKey _ _ _ _ := derived
  init _ _ key iv := ⟨key, iv, []⟩
  reinit _ s := { s with buffer := [] }
  blockSize _ := 16
  update _ s value inl :=
    if inl < 0 then (none, s)
    else (some [], { s with buffer := s.buffer ++ value.take inl.toNat })
  final d s :=
    (match d with
      | .encrypt => some (Cbc.encipher (aes s.key) (Cbc.block 16 s.iv) s.buffer)
      | .decrypt => Cbc.decipher (aes s.key) (Cbc.block 16 s.iv) s.buffer, s)

theorem OpenSSL.buffered_isAes256Cbc (derived : Bytes × Bytes)
    (aes : Bytes → Equiv.Perm (Cbc.Block 16)) : (buffered derived aes).IsAes256Cbc aes where
  blockSize _ := rfl
  reinit_init _ _ _ _ := rfl
  reinit_update d s value inl := by
    simp only [buffered]
    split_ifs <;> rfl
  reinit_final _ _ := rfl
  encrypt cipher _ key iv value _ _ := by
    have hlen : ¬ (value.length : ℤ) < 0 := by omega
    simp [oneShot, buffered, hlen]
  decrypt cipher _ key iv sec value _ h := by
    have hlen : ¬ (sec.length : ℤ) < 0 := by omega
    simp [oneShot, buffered, hlen, h]

/-- The key and the vector that are derived from the default configuration. -/
def defaultDerived : Bytes × Bytes :=
  ([6, 161, 41, 56, 174, 9, 252, 104, 227, 58, 119, 118, 20, 240, 62, 245,
    204, 136, 45, 59, 168, 155, 193, 33, 128, 231, 184, 183, 50, 78, 101, 99],
    [8, 136, 61, 186, 119, 163, 190, 36, 16, 239, 200, 30, 3, 3, 2, 74])

/-- A permutation that does as AES with the default key on the block that `"value"` comes down to.
-/
def defaultAes : Equiv.Perm (Cbc.Block 16) :=
  Equiv.swap
    #v[126, 233, 81, 207, 18, 168, 181, 47, 27, 228, 195, 21, 8, 8, 9, 65]
    #v[31, 133, 162, 153, 68, 121, 41, 200, 94, 32, 236, 28, 82, 19, 191, 72]

/-- What OpenSSL makes of `"value"` with the default key. -/
example :
    (Cipher.ofOpenSSL (OpenSSL.buffered defaultDerived fun _ => defaultAes) () defaultDerived.1
      defaultDerived.2).encrypt (text "value") =
      [31, 133, 162, 153, 68, 121, 41, 200, 94, 32, 236, 28, 82, 19, 191, 72] := by
  decide +kernel

/-- Two encrypters, one of which has failed to decrypt a single byte. -/
theorem decrypt_encrypt_pooled_two :
    let o := OpenSSL.buffered defaultDerived fun _ => defaultAes
    let e : Encrypter BufferedContext :=
      ⟨o.init .encrypt () defaultDerived.1 defaultDerived.2,
        o.init .decrypt () defaultDerived.1 defaultDerived.2, false, false⟩
    let before : List (Bool × Encrypter.Op) :=
      [(true, .decrypt [1]), (false, .encrypt []), (true, .encrypt (text "value"))]
    ∃ sec, ((Encrypter.run o (fun _ => e) before true).encrypt o (text "value")).1 = some sec ∧
      ((Encrypter.run o (fun _ => e) (before ++ [(true, .encrypt (text "value"))])
        false).decrypt o sec).1 = some (text "value") := by
  intro o e before
  exact decrypt_encrypt_pooled o (fun _ => defaultAes) (OpenSSL.buffered_isAes256Cbc _ _) {}
    (fun _ => e) (fun _ => rfl) before [] true false (text "value") (by decide)

end ConfigDb
