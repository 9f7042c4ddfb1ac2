import KalshiClient.Base.Base64
import KalshiClient.Http.Request
import KalshiClient.WebSocket.Handshake

/-!
# Signed requests

`kalshi_auth::Signer` signs the time, the method and the target of a request, and puts the signature with the time and
the name of the key into three header lines.  The signature itself is made by OpenSSL; what can be said here is that the
exchange finds in the request what was signed, whatever the target and whatever the bytes of the signature
(`authentic_of_signed`), and that what is signed belongs to one time, method and target only (`signedMessage_inj`).

The name of the key comes from the environment, where nothing checks it.  It has to be a single line without blanks
around it.
-/

namespace KalshiClient.Http

open Bytes

/-! ## The source -/

/-- What the calls to OpenSSL in `sign` return, in their order. -/
structure Openssl where
  /-- Whether `EVP_MD_CTX_new` succeeds. -/
  context : Bool := true
  /-- `EVP_DigestSignInit`. -/
  init : Except Bytes Unit := .ok ()
  /-- `EVP_PKEY_CTX_set_rsa_padding`. -/
  padding : Except Bytes Unit := .ok ()
  /-- `EVP_PKEY_CTX_set_rsa_pss_saltlen`. -/
  saltlen : Except Bytes Unit := .ok ()
  /-- `EVP_DigestSignUpdate`. -/
  update : Except Bytes Unit := .ok ()
  /-- `EVP_DigestSignFinal`, when it is asked for the length. -/
  length : Except Bytes Unit := .ok ()
  /-- `EVP_DigestSignFinal`, when it is asked for the signature of a message. -/
  final : Bytes → Except Bytes Bytes

/-- `class Signer`; the key stays with OpenSSL. -/
structure Signer where
  /-- `_key_id`. -/
  keyId : Bytes

/-- `base64_encode`: `EVP_EncodeBlock` writes into the string, with a NUL at the end, and returns how much of it is
text. -/
def base64Encode (data : Bytes) : Bytes :=
  let buffer := List.replicate (4 * ((data.length + 2) / 3) + 1) 0
  let block := Base64.encode data ++ [0]
  (block ++ buffer.drop block.length).take (Base64.encode data).length

/-- A call, with what its error is called. -/
def failing {α : Type} (what : String) (call : Except Bytes α) : Except Bytes α :=
  match call with
  | .ok a => .ok a
  | .error e => .error (ascii what ++ e)

/-- `Signer::sign`. -/
def sign (ssl : Openssl) (message : Bytes) : Except Bytes Bytes := do
  if !ssl.context then throw (ascii "Failed to create digest context")
  failing "EVP_DigestSignInit failed: " ssl.init
  failing "Failed to set RSA-PSS padding: " ssl.padding
  failing "Failed to set RSA-PSS salt length: " ssl.saltlen
  failing "EVP_DigestSignUpdate failed: " ssl.update
  failing "Failed to determine signature length: " ssl.length
  let signature ← failing "EVP_DigestSignFinal failed: " (ssl.final message)
  return base64Encode signature

/-- What is signed. -/
def signedMessage (timestamp : Int) (method path : Bytes) : Bytes := ofInt timestamp ++ method ++ path

/-- `Signer::auth_headers`, at a time. -/
def Signer.authHeaders (signer : Signer) (timestamp : Int) (ssl : Openssl) (method path : Bytes) :
    Except Bytes Bytes :=
  match sign ssl (signedMessage timestamp method path) with
  | .error e => .error (ascii "Failed to sign request: " ++ e)
  | .ok signature =>
    .ok (ascii "KALSHI-ACCESS-KEY: " ++ signer.keyId ++ ascii "\r\nKALSHI-ACCESS-SIGNATURE: " ++ signature ++
      ascii "\r\nKALSHI-ACCESS-TIMESTAMP: " ++ ofInt timestamp ++ crlf)

/-- `generate_websocket_key`, from the random bytes. -/
def generateWebsocketKey (raw : Bytes) : Bytes := Base64.encode raw

/-! ## The server -/

/-- The value of the first header of a name. -/
def Request.header (r : Request) (name : Bytes) : Option Bytes :=
  (r.headers.find? (Header.isNamed name)).map Prod.snd

/-- The exchange's check: the key is the one it knows, and the signature is one for the time, the method and the target
of the request. -/
def authentic (verify : Bytes → Bytes → Bool) (keyId : Bytes) (r : Request) : Bool :=
  match r.header (ascii "kalshi-access-key"), r.header (ascii "kalshi-access-signature"),
    r.header (ascii "kalshi-access-timestamp") with
  | some key, some signature, some timestamp =>
    match Base64.decode signature with
    | some signature => key = keyId && verify (timestamp ++ r.method ++ r.path) signature
    | none => false
  | _, _, _ => false

/-! ## Header lines as they are written -/

/-- What can be the value of a header. -/
structure IsValue (s : Bytes) : Prop where
  text : ∀ c ∈ s, isText c = true
  head : ∀ c ∈ s.head?, isBlank c = false
  last : ∀ c ∈ s.getLast?, isBlank c = false

/-- A word has no blanks to begin or to end with. -/
theorem IsValue.of_forall {s : Bytes} (h : ∀ c ∈ s, isText c = true ∧ isBlank c = false) : IsValue s where
  text c hc := (h c hc).1
  head c hc := (h c (List.mem_of_head? hc)).2
  last c hc := (h c (List.mem_of_getLast? hc)).2

/-- What can be the name of a header. -/
def isName (s : Bytes) : Bool := s ≠ [] && s.all fun c ↦ isText c && c ≠ ':'.toUInt8

theorem isBlank_of_mem_blank : ∀ c ∈ ascii " ", isBlank c = true := forall_mem_of_all (by decide)

theorem isBlank_of_mem_nil : ∀ c ∈ ([] : Bytes), isBlank c = true := List.forall_mem_nil _

/-- A header line with one blank in it. -/
def spaced (name : Bytes) (hname : isName name = true) (value : Bytes) (hvalue : IsValue value) : Field where
  name := name
  before := ascii " "
  value := value
  after := []
  name_ne := of_decide_eq_true (Bool.and_eq_true_iff.mp hname).1
  name_text c hc := by
    have htext := List.all_eq_true.mp (Bool.and_eq_true_iff.mp hname).2 c hc
    exact ⟨(Bool.and_eq_true_iff.mp htext).1, of_decide_eq_true (Bool.and_eq_true_iff.mp htext).2⟩
  before_blank := isBlank_of_mem_blank
  value_text := hvalue.text
  value_head := hvalue.head
  value_last := hvalue.last
  after_blank := isBlank_of_mem_nil

/-- Header lines, each with its end. -/
def endedLines (fields : List Field) : Bytes := fields.flatMap fun f ↦ f.line ++ crlf

theorem crlf_endedLines (fields : List Field) : crlf ++ endedLines fields = fieldLines fields ++ crlf := by
  induction fields with
  | nil => rfl
  | cons f fields ih =>
      rw [endedLines, List.flatMap_cons, ← endedLines, List.append_assoc, ih, fieldLines_cons]
      simp only [List.append_assoc]

/-! ## What is signed -/

theorem isValue_encode (s : Bytes) : IsValue (Base64.encode s) := by
  have halphabet : ∀ c ∈ Base64.alphabet ++ [Base64.pad], isText c = true ∧ isBlank c = false :=
    forall_mem_of_all (by decide +kernel)
  exact .of_forall fun c hc ↦ halphabet c (Base64.mem_of_mem_encode hc)

theorem isValue_ofInt (t : Int) : IsValue (ofInt t) := by
  have hdigit : ∀ c : UInt8, isDigit c = true → isText c = true ∧ isBlank c = false := forall_byte (by decide)
  refine .of_forall fun c hc ↦ ?_
  rcases mem_ofInt hc with hc | rfl
  · exact hdigit c hc
  · decide

/-- The string is as long as what is written into it, and what is kept of it is the text. -/
theorem base64Encode_eq (data : Bytes) : base64Encode data = Base64.encode data := by
  rw [base64Encode, List.append_assoc, List.take_left]

theorem sign_eq_ok {ssl : Openssl} {message s : Bytes} (h : sign ssl message = .ok s) :
    ∃ signature, ssl.final message = .ok signature ∧ s = Base64.encode signature := by
  have hfailing {α : Type} {what : String} {call : Except Bytes α} {a : α} (h : failing what call = .ok a) :
      call = .ok a := by
    cases call with
    | ok a' => exact h
    | error e => cases h
  have hchain : ∃ signature, failing "EVP_DigestSignFinal failed: " (ssl.final message) = .ok signature ∧
      base64Encode signature = s := by
    rw [sign] at h
    dsimp only at h
    split_ifs at h
    · cases h
    · simp only [Except.bind_eq_ok_iff] at h
      obtain ⟨_, -, _, -, _, -, _, -, _, -, signature, hfinal, hs⟩ := h
      exact ⟨signature, hfinal, Except.ok.inj hs⟩
  obtain ⟨signature, hfinal, rfl⟩ := hchain
  exact ⟨signature, hfailing hfinal, base64Encode_eq signature⟩

/-- The three header lines. -/
def accessFields {keyId : Bytes} (hkey : IsValue keyId) (signature : Bytes) (timestamp : Int) : List Field :=
  [spaced (ascii "KALSHI-ACCESS-KEY") (by decide) keyId hkey,
    spaced (ascii "KALSHI-ACCESS-SIGNATURE") (by decide) (Base64.encode signature) (isValue_encode signature),
    spaced (ascii "KALSHI-ACCESS-TIMESTAMP") (by decide) (ofInt timestamp) (isValue_ofInt timestamp)]

theorem Signer.authHeaders_eq_ok {signer : Signer} (hkey : IsValue signer.keyId) {timestamp : Int} {ssl : Openssl}
    {method path auth : Bytes} (h : signer.authHeaders timestamp ssl method path = .ok auth) :
    ∃ signature, ssl.final (signedMessage timestamp method path) = .ok signature ∧
      auth = endedLines (accessFields hkey signature timestamp) := by
  rw [authHeaders] at h
  cases hsign : sign ssl (signedMessage timestamp method path) with
  | error e =>
      rw [hsign] at h
      cases h
  | ok text =>
      rw [hsign] at h
      obtain ⟨signature, hfinal, rfl⟩ := sign_eq_ok hsign
      refine ⟨signature, hfinal, ?_⟩
      rw [← Except.ok.inj h]
      simp only [endedLines, accessFields, List.flatMap_cons, List.flatMap_nil, spaced, Field.line]
      simp only [List.append_assoc, List.append_nil]
      rfl

/-- A header is none of the three. -/
def Header.isOther (f : Header) : Bool :=
  !(f.isNamed (ascii "kalshi-access-key") || f.isNamed (ascii "kalshi-access-signature") ||
    f.isNamed (ascii "kalshi-access-timestamp"))

/-- **The exchange accepts what was signed**, if the three header lines stand anywhere among others. -/
theorem authentic_of_signed {verify : Bytes → Bytes → Bool} {keyId : Bytes} (hkey : IsValue keyId) {signature : Bytes}
    {timestamp : Int} {r : Request} {before after : List Header}
    (hheaders : r.headers = before ++ ((accessFields hkey signature timestamp).map Field.header ++ after))
    (hbefore : ∀ f ∈ before, f.isOther = true)
    (hverify : verify (signedMessage timestamp r.method r.path) signature = true) :
    authentic verify keyId r = true := by
  have hskip (name : Bytes) (hname : ∀ f : Header, f.isOther = true → f.isNamed name = false) :
      r.header name = (((accessFields hkey signature timestamp).map Field.header ++ after).find?
        (Header.isNamed name)).map Prod.snd := by
    have hnone : before.find? (Header.isNamed name) = none := by
      rw [List.find?_eq_none]
      exact fun f hf ↦ Bool.eq_false_iff.mp (hname f (hbefore f hf))
    rw [Request.header, hheaders, List.find?_append, hnone, Option.none_or]
  have hkey' : r.header (ascii "kalshi-access-key") = some keyId := by
    rw [hskip _ fun f hf ↦ by
      simp only [Header.isOther, Bool.not_eq_true', Bool.or_eq_false_iff] at hf
      exact hf.1.1]
    rfl
  have hsignature : r.header (ascii "kalshi-access-signature") = some (Base64.encode signature) := by
    rw [hskip _ fun f hf ↦ by
      simp only [Header.isOther, Bool.not_eq_true', Bool.or_eq_false_iff] at hf
      exact hf.1.2]
    rfl
  have htimestamp : r.header (ascii "kalshi-access-timestamp") = some (ofInt timestamp) := by
    rw [hskip _ fun f hf ↦ by
      simp only [Header.isOther, Bool.not_eq_true', Bool.or_eq_false_iff] at hf
      exact hf.2]
    rfl
  rw [authentic, hkey', hsignature, htimestamp]
  dsimp only
  rw [Base64.decode_encode]
  dsimp only
  rw [decide_eq_true rfl, Bool.true_and]
  exact hverify

/-- Two texts that go on with something else are the same if they are so with what follows. -/
theorem append_inj_of_head {p : UInt8 → Bool} {a a' b b' : Bytes} (ha : ∀ c ∈ a, p c = true)
    (ha' : ∀ c ∈ a', p c = true) (hb : ∀ c ∈ b.head?, p c = false) (hb' : ∀ c ∈ b'.head?, p c = false)
    (h : a ++ b = a' ++ b') : a = a' ∧ b = b' := by
  have htake {a b : Bytes} (ha : ∀ c ∈ a, p c = true) (hb : ∀ c ∈ b.head?, p c = false) :
      (a ++ b).dropWhile p = b := by
    rw [List.dropWhile_append_of_pos ha, dropWhile_eq_self_of_head? hb]
  have hrest : b = b' := by rw [← htake ha hb, h, htake ha' hb']
  rw [hrest] at h
  exact ⟨List.append_cancel_right h, hrest⟩

/-- A byte of a time. -/
def isTime (c : UInt8) : Bool := isDigit c || c = '-'.toUInt8

/-- A letter of a method. -/
def isUpper (c : UInt8) : Bool := 'A'.toUInt8 ≤ c && c ≤ 'Z'.toUInt8

/-- **A signature is for one request only**: the time ends where the method begins, and the method where the target
does. -/
theorem signedMessage_inj {t t' : Int} {method method' path path' : Bytes}
    (hmethod : ∀ c ∈ method, isUpper c = true) (hmethod' : ∀ c ∈ method', isUpper c = true)
    (hpath : path.head? = some '/'.toUInt8) (hpath' : path'.head? = some '/'.toUInt8)
    (h : signedMessage t method path = signedMessage t' method' path') :
    t = t' ∧ method = method' ∧ path = path' := by
  have htime (t : Int) : ∀ c ∈ ofInt t, isTime c = true := fun c hc ↦ by
    rcases mem_ofInt hc with hc | rfl
    · rw [isTime, hc, Bool.true_or]
    · rfl
  have hupper : ∀ c : UInt8, isUpper c = true → isTime c = false := forall_byte (by decide)
  have hslash {path : Bytes} (hpath : path.head? = some '/'.toUInt8) : ∀ c ∈ path.head?, isUpper c = false := by
    rw [hpath]
    rintro c ⟨⟩
    rfl
  have hrest {method path : Bytes} (hmethod : ∀ c ∈ method, isUpper c = true)
      (hpath : path.head? = some '/'.toUInt8) : ∀ c ∈ (method ++ path).head?, isTime c = false := by
    intro c hc
    cases method with
    | nil =>
        rw [List.nil_append, hpath] at hc
        cases hc
        rfl
    | cons d method =>
        cases hc
        exact hupper c (hmethod c List.mem_cons_self)
  rw [signedMessage, signedMessage, List.append_assoc, List.append_assoc] at h
  obtain ⟨hstamp, h⟩ :=
    append_inj_of_head (htime t) (htime t') (hrest hmethod hpath) (hrest hmethod' hpath') h
  obtain ⟨rfl, rfl⟩ := append_inj_of_head hmethod hmethod' (hslash hpath) (hslash hpath') h
  exact ⟨ofInt_injective hstamp, rfl, rfl⟩

end KalshiClient.Http
