import Libid.Base.Base64
import Libid.Base.Codec
import Libid.Base.Count
import Libid.Base.Hex
import Libid.Tlsn.Capture
import Libid.Transcript.Layouts

/-! What a capture asks a platform for and sends it: the authorization request, the proof key
it is bound by, and the body that exchanges the code. -/

namespace Libid.Tlsn

open Transcript

/-! ### `common.rs` -/

section

variable (keccak256 sha256 : Bytes → ByteArrayOf 32)

def operationDomain : Bytes := ascii "libid.claim-identity"

def authorizationNonce : Bytes := List.replicate 32 0x55

def transactionData : Bytes := List.replicate 30 0 ++ [0xbe, 0xef]

def authorizationDigest : ByteArrayOf 32 :=
  let chain := List.replicate 24 0 ++ toBeBytes 8 31337
  keccak256 ((keccak256 operationDomain).val ++ toBeBytes 2 1 ++ (keccak256 chain).val ++
    authorizationNonce ++ toBeBytes 4 transactionData.length ++ transactionData)

def codeVerifier : Bytes :=
  base64url (sha256 ((authorizationDigest keccak256).val ++ authorizationNonce)).val

def codeChallenge : Bytes := base64url (sha256 (codeVerifier keccak256 sha256)).val

end

/-! ### `capture_ceremony.rs` -/

inductive Platform
  | x
  | github

def Platform.authorize : Platform → Bytes
  | .x => ascii "https://x.com/i/oauth2/authorize?response_type=code"
  | .github => ascii "https://github.com/login/oauth/authorize?"

def Platform.scope : Platform → String
  | .x => "tweet.read users.read"
  | .github => "read:user"

def Platform.separator (platform : Platform) : Bytes :=
  if platform.authorize.getLast? = some 0x3f then [] else ascii "&"

def authorizeUrl (platform : Platform) (clientId redirectUri : String)
    (state challenge : Bytes) : Bytes :=
  platform.authorize ++ platform.separator ++ ascii "client_id=" ++ formEncode (utf8 clientId) ++
    ascii "&redirect_uri=" ++ formEncode (utf8 redirectUri) ++
    ascii "&scope=" ++ formEncode (utf8 platform.scope) ++
    ascii "&state=" ++ state ++ ascii "&code_challenge=" ++ challenge ++
    ascii "&code_challenge_method=S256"

/-- The body of the token request.  GitHub takes the app's secret, and takes it last. -/
def tokenBody (platform : Platform) (clientId code redirectUri secret : String)
    (verifier : Bytes) : Bytes :=
  match platform with
  | .x =>
    ascii "grant_type=authorization_code&client_id=" ++ formEncode (utf8 clientId) ++
      ascii "&code=" ++ formEncode (utf8 code) ++
      ascii "&redirect_uri=" ++ formEncode (utf8 redirectUri) ++
      ascii "&code_verifier=" ++ verifier
  | .github =>
    ascii "client_id=" ++ formEncode (utf8 clientId) ++
      ascii "&code=" ++ formEncode (utf8 code) ++
      ascii "&redirect_uri=" ++ formEncode (utf8 redirectUri) ++
      ascii "&code_verifier=" ++ verifier ++
      ascii "&client_secret=" ++ formEncode (utf8 secret)

/-! ### What the platform reads -/

/-- The pairs of a query, as `receive_code` takes them apart. -/
def decodePairs (query : Bytes) : List (Bytes × Bytes) :=
  (query.splitOn 0x26).map fun pair =>
    ((splitOnce 0x3d pair).getD (pair, [])).map formDecode formDecode

theorem decodePairs_formQuery {params : List (Bytes × Bytes)} (hne : params ≠ [])
    (htext : ∀ p ∈ params, fromUtf8Lossy p.1 = p.1 ∧ fromUtf8Lossy p.2 = p.2) :
    decodePairs (formQuery params) = params := by
  rw [decodePairs, splitOn_formQuery hne, List.map_map]
  refine (List.map_congr_left fun p hp => ?_).trans (List.map_id params)
  obtain ⟨hk, hv⟩ := htext p hp
  rw [Function.comp_apply, splitOnce_formPair, Option.getD_some, Prod.map_apply, formDecode,
    formDecode, formDecodeBytes_formEncode, formDecodeBytes_formEncode, hk, hv]
  rfl

theorem formEncode_eq_self {bs : Bytes} (h : ∀ b ∈ bs, isUnreserved b = true) :
    formEncode bs = bs := by
  rw [formEncode, List.flatMap_congr fun b hb => if_pos (h b hb), List.flatMap_singleton']

theorem isUnreserved_lt {b : UInt8} (h : isUnreserved b = true) : b < 0x80 :=
  isPrintable_lt (isPrintable_of_isEncoded (by rw [isEncoded, h, Bool.true_or]))

theorem fromUtf8Lossy_eq_self {bs : Bytes} (h : ∀ b ∈ bs, isUnreserved b = true) :
    fromUtf8Lossy bs = bs := by
  have := fromUtf8LossyFrom_ascii (fun b hb => isUnreserved_lt (h b hb)) []
  rwa [List.append_nil, fromUtf8LossyFrom, List.append_nil] at this

theorem isUnreserved_of_mem_alphabet {b : UInt8} (h : b ∈ base64Alphabet) :
    isUnreserved b = true := by
  have hall : base64Alphabet.all isUnreserved = true := by decide
  exact List.all_eq_true.mp hall b h

theorem isVerifierByte_of_mem_alphabet {b : UInt8} (h : b ∈ base64Alphabet) :
    isAsciiAlphabetic b || isAsciiDigit b || b == 0x5f || b == 0x2d := by
  have hall : (base64Alphabet.all fun b =>
      isAsciiAlphabetic b || isAsciiDigit b || b == 0x5f || b == 0x2d) = true := by
    decide
  exact List.all_eq_true.mp hall b h

theorem isUnreserved_base64url (bs : Bytes) : ∀ b ∈ base64url bs, isUnreserved b = true :=
  fun _ hb => isUnreserved_of_mem_alphabet (mem_alphabet_of_mem_base64url hb)

def authorizePairs (platform : Platform) (clientId redirectUri : String)
    (state challenge : Bytes) : List (Bytes × Bytes) :=
  (match platform with
    | .x => [(ascii "response_type", ascii "code")]
    | .github => []) ++
  [(ascii "client_id", utf8 clientId), (ascii "redirect_uri", utf8 redirectUri),
    (ascii "scope", utf8 platform.scope), (ascii "state", state),
    (ascii "code_challenge", challenge), (ascii "code_challenge_method", ascii "S256")]

def tokenPairs (platform : Platform) (clientId code redirectUri secret : String)
    (verifier : Bytes) : List (Bytes × Bytes) :=
  match platform with
  | .x =>
    [(ascii "grant_type", ascii "authorization_code"), (ascii "client_id", utf8 clientId),
      (ascii "code", utf8 code), (ascii "redirect_uri", utf8 redirectUri),
      (ascii "code_verifier", verifier)]
  | .github =>
    [(ascii "client_id", utf8 clientId), (ascii "code", utf8 code),
      (ascii "redirect_uri", utf8 redirectUri), (ascii "code_verifier", verifier),
      (ascii "client_secret", utf8 secret)]

theorem intercalate_formPair (p : Bytes × Bytes) (params : List (Bytes × Bytes)) :
    formQuery (p :: params) = formPair p ++ params.flatMap fun q => 0x26 :: formPair q := by
  induction params generalizing p with
  | nil => simp [formQuery]
  | cons q params ih =>
    rw [List.flatMap_cons, List.cons_append, ← ih q, formQuery, formQuery, List.map_cons,
      List.map_cons, List.intercalate_cons_cons]
    simp

theorem formEncode_ascii {s : String} (h : (ascii s).all isUnreserved = true) :
    formEncode (ascii s) = ascii s := formEncode_eq_self (List.all_eq_true.mp h)

theorem tokenBody_eq (platform : Platform) (clientId code redirectUri secret : String)
    {verifier : Bytes} (h : ∀ b ∈ verifier, isUnreserved b = true) :
    tokenBody platform clientId code redirectUri secret verifier =
      formQuery (tokenPairs platform clientId code redirectUri secret verifier) := by
  have hverifier := formEncode_eq_self h
  cases platform with
  | x =>
    rw [tokenBody, tokenPairs, intercalate_formPair]
    simp (disch := decide) only [List.flatMap_cons, List.flatMap_nil, formPair, hverifier,
      formEncode_ascii, List.append_assoc, List.append_nil]
    rfl
  | github =>
    rw [tokenBody, tokenPairs, intercalate_formPair]
    simp (disch := decide) only [List.flatMap_cons, List.flatMap_nil, formPair, hverifier,
      formEncode_ascii, List.append_assoc, List.append_nil]
    rfl

def Platform.endpoint : Platform → Bytes
  | .x => ascii "https://x.com/i/oauth2/authorize"
  | .github => ascii "https://github.com/login/oauth/authorize"

theorem authorizeUrl_eq (platform : Platform) (clientId redirectUri : String)
    {state challenge : Bytes} (hstate : ∀ b ∈ state, isUnreserved b = true)
    (hchallenge : ∀ b ∈ challenge, isUnreserved b = true) :
    authorizeUrl platform clientId redirectUri state challenge =
      platform.endpoint ++ 0x3f ::
        formQuery (authorizePairs platform clientId redirectUri state challenge) := by
  have hstate := formEncode_eq_self hstate
  have hchallenge := formEncode_eq_self hchallenge
  cases platform with
  | x =>
    have hopen : Platform.x.authorize ++ Platform.x.separator =
        Platform.x.endpoint ++ ascii "?response_type=code&" := by decide
    rw [authorizeUrl, hopen, authorizePairs, List.singleton_append, intercalate_formPair]
    simp (disch := decide) only [List.flatMap_cons, List.flatMap_nil, formPair, hstate,
      hchallenge, formEncode_ascii, List.append_assoc, List.append_nil]
    rfl
  | github =>
    have hopen : Platform.github.authorize ++ Platform.github.separator =
        Platform.github.endpoint ++ [0x3f] := by decide
    rw [authorizeUrl, hopen, authorizePairs, List.nil_append, intercalate_formPair]
    simp (disch := decide) only [List.flatMap_cons, List.flatMap_nil, formPair, hstate,
      hchallenge, formEncode_ascii, List.append_assoc, List.append_nil]
    rfl

theorem isUnreserved_hexEncode (bs : Bytes) : ∀ b ∈ hexEncode bs, isUnreserved b = true := by
  have hdigit : ∀ n < 16, isUnreserved (lowerDigit n) = true := by decide
  intro b hb
  obtain ⟨a, -, hb⟩ := List.mem_flatMap.mp hb
  have ha := a.toNat_lt
  rcases List.mem_pair.mp hb with rfl | rfl
  · exact hdigit _ (by omega)
  · exact hdigit _ (by omega)

theorem fromUtf8Lossy_ascii {s : String} (h : (ascii s).all isUnreserved = true) :
    fromUtf8Lossy (ascii s) = ascii s := fromUtf8Lossy_eq_self (List.all_eq_true.mp h)

theorem text_authorizePairs (platform : Platform) (clientId redirectUri : String)
    {state challenge : Bytes} (hstate : ∀ b ∈ state, isUnreserved b = true)
    (hchallenge : ∀ b ∈ challenge, isUnreserved b = true) :
    ∀ p ∈ authorizePairs platform clientId redirectUri state challenge,
      fromUtf8Lossy p.1 = p.1 ∧ fromUtf8Lossy p.2 = p.2 := by
  have hstate := fromUtf8Lossy_eq_self hstate
  have hchallenge := fromUtf8Lossy_eq_self hchallenge
  cases platform <;>
    simp (disch := decide) [authorizePairs, fromUtf8Lossy_ascii, fromUtf8Lossy_utf8,
      hstate, hchallenge]

theorem text_tokenPairs (platform : Platform) (clientId code redirectUri secret : String)
    {verifier : Bytes} (h : ∀ b ∈ verifier, isUnreserved b = true) :
    ∀ p ∈ tokenPairs platform clientId code redirectUri secret verifier,
      fromUtf8Lossy p.1 = p.1 ∧ fromUtf8Lossy p.2 = p.2 := by
  have hverifier := fromUtf8Lossy_eq_self h
  cases platform <;>
    simp (disch := decide) [tokenPairs, fromUtf8Lossy_ascii, fromUtf8Lossy_utf8, hverifier]

/-- Whatever an app, its secret, its redirect and its code are, each platform reads from the
authorization request and from the body what the capture was given, and the proof key in them
is one that the Token-Exchange Service takes and that gives its digest back. -/
theorem capture_carries (keccak256 sha256 : Bytes → ByteArrayOf 32) (platform : Platform)
    (clientId redirectUri code secret : String) (seed : Bytes) :
    (∃ query, splitOnce 0x3f (authorizeUrl platform clientId redirectUri (hexEncode seed)
          (codeChallenge keccak256 sha256)) = some (platform.endpoint, query) ∧
      decodePairs query = authorizePairs platform clientId redirectUri (hexEncode seed)
        (codeChallenge keccak256 sha256)) ∧
    decodePairs (tokenBody platform clientId code redirectUri secret
        (codeVerifier keccak256 sha256)) =
      tokenPairs platform clientId code redirectUri secret (codeVerifier keccak256 sha256) ∧
    base64Decode (codeVerifier keccak256 sha256) =
      some (sha256 ((authorizationDigest keccak256).val ++ authorizationNonce)).val ∧
    ∀ handed : Bytes, Ceremony.TokenRequest.validate ⟨handed, codeVerifier keccak256 sha256⟩ =
      .ok () ↔ Ceremony.Carried Ceremony.maxCodeBytes handed := by
  have hverifier : ∀ b ∈ codeVerifier keccak256 sha256, isUnreserved b = true :=
    isUnreserved_base64url _
  have hchallenge : ∀ b ∈ codeChallenge keccak256 sha256, isUnreserved b = true :=
    isUnreserved_base64url _
  have hstate := isUnreserved_hexEncode seed
  refine ⟨⟨_, ?_, decodePairs_formQuery ?_ (text_authorizePairs platform clientId redirectUri
    hstate hchallenge)⟩, ?_, base64Decode_base64url _, fun handed => ?_⟩
  · have hendpoint : 0x3f ∉ platform.endpoint := by
      cases platform <;> decide
    rw [authorizeUrl_eq platform clientId redirectUri hstate hchallenge]
    exact splitOnce_of_notMem hendpoint _
  · cases platform <;> simp [authorizePairs]
  · have hne : tokenPairs platform clientId code redirectUri secret
        (codeVerifier keccak256 sha256) ≠ [] := by
      cases platform <;> simp [tokenPairs]
    rw [tokenBody_eq platform clientId code redirectUri secret hverifier]
    exact decodePairs_formQuery hne
      (text_tokenPairs platform clientId code redirectUri secret hverifier)
  · rw [Ceremony.TokenRequest.validate_eq_ok]
    refine ⟨fun h => h.code, fun h => ⟨h, ?_, fun b hb => ?_⟩⟩
    · have hdigest :=
        (sha256 ((authorizationDigest keccak256).val ++ authorizationNonce)).property
      rw [codeVerifier, length_base64url, hdigest]
      rfl
    · exact isVerifierByte_of_mem_alphabet (mem_alphabet_of_mem_base64url hb)

def publicPairs (clientId code redirectUri : String) (verifier : Bytes) : List (Bytes × Bytes) :=
  [(ascii "client_id", utf8 clientId), (ascii "code", utf8 code),
    (ascii "redirect_uri", utf8 redirectUri), (ascii "code_verifier", verifier)]

def secretPair (secret : String) : Bytes × Bytes := (ascii "client_secret", utf8 secret)

theorem tokenPairs_github (clientId code redirectUri secret : String) (verifier : Bytes) :
    tokenPairs .github clientId code redirectUri secret verifier =
      publicPairs clientId code redirectUri verifier ++ [secretPair secret] := rfl

theorem formQuery_concat {params : List (Bytes × Bytes)} (hne : params ≠ [])
    (p : Bytes × Bytes) : formQuery (params ++ [p]) = formQuery params ++ 0x26 :: formPair p := by
  cases params with
  | nil => exact absurd rfl hne
  | cons q params =>
    rw [List.cons_append, intercalate_formPair, intercalate_formPair, List.flatMap_append,
      List.flatMap_singleton, List.append_assoc]

theorem formQuery_joinLines (p : Bytes × Bytes) (params : List (Bytes × Bytes)) :
    formQuery (p :: params) = formPair p ++ joinLines 0x26 [] (params.map formPair) := by
  rw [intercalate_formPair, joinLines, List.flatMap_map]
  rfl

theorem publicPairs_name (clientId code redirectUri : String) (verifier : Bytes) :
    ∀ p ∈ publicPairs clientId code redirectUri verifier,
      ¬ ascii "client_secret=" <+: formPair p := by
  rintro p hp ⟨t, ht⟩
  have hsecret : splitOnce 0x3d (formPair p) = some (ascii "client_secret", t) := by
    rw [← ht]
    exact splitOnce_of_notMem (show 0x3d ∉ ascii "client_secret" by decide) t
  rw [splitOnce_formPair, Option.some.injEq, Prod.mk.injEq] at hsecret
  have hnames : ∀ name ∈ ["client_id", "code", "redirect_uri", "code_verifier"],
      formEncode (ascii name) ≠ ascii "client_secret" := by decide
  simp only [publicPairs, List.mem_cons, List.not_mem_nil, or_false] at hp
  rcases hp with rfl | rfl | rfl | rfl
  all_goals exact hnames _ (by simp) hsecret.1

theorem formPair_secretPair (secret : String) :
    formPair (secretPair secret) = ascii "client_secret=" ++ formEncode (utf8 secret) := by
  rw [secretPair, formPair, formEncode_ascii (by decide)]
  rfl

def shownOf (head : Bytes) (clientId code redirectUri : String) (verifier : Bytes) : Bytes :=
  head ++ formQuery (publicPairs clientId code redirectUri verifier)

def hiddenOf (secret : String) : Bytes := 0x26 :: formPair (secretPair secret)

theorem publicPairs_ne_nil (clientId code redirectUri : String) (verifier : Bytes) :
    publicPairs clientId code redirectUri verifier ≠ [] := by
  simp [publicPairs]

theorem shownOf_ne_nil (head : Bytes) (clientId code redirectUri : String) (verifier : Bytes) :
    shownOf head clientId code redirectUri verifier ≠ [] := by
  rw [shownOf, publicPairs, formQuery_joinLines]
  simp [formPair]

theorem hiddenOf_ne_nil (secret : String) : hiddenOf secret ≠ [] := by
  simp [hiddenOf]

theorem head_append_tokenBody (head : Bytes) (clientId code redirectUri secret : String)
    {verifier : Bytes} (hverifier : ∀ b ∈ verifier, isUnreserved b = true) :
    head ++ tokenBody .github clientId code redirectUri secret verifier =
      shownOf head clientId code redirectUri verifier ++ hiddenOf secret := by
  rw [tokenBody_eq .github clientId code redirectUri secret hverifier, tokenPairs_github,
    formQuery_concat (publicPairs_ne_nil clientId code redirectUri verifier), shownOf, hiddenOf,
    List.append_assoc]

theorem firstAt_secret {head : Bytes} (hhead : 0x26 ∉ head)
    (clientId code redirectUri secret : String) (verifier : Bytes) :
    FirstAt (Layout.secretNeedle (ascii "client_secret"))
      (shownOf head clientId code redirectUri verifier ++ hiddenOf secret)
      (shownOf head clientId code redirectUri verifier).length := by
  have hname := publicPairs_name clientId code redirectUri verifier
  have hneedle : Layout.secretNeedle (ascii "client_secret") =
      0x26 :: ([] ++ ascii "client_secret=") := by decide
  rw [shownOf, hiddenOf, formPair_secretPair, hneedle]
  obtain ⟨first, rest, hpairs⟩ : ∃ first rest,
      publicPairs clientId code redirectUri verifier = first :: rest := ⟨_, _, rfl⟩
  rw [hpairs] at hname ⊢
  have hfront : 0x26 ∉ head ++ formPair first := by
    rw [List.mem_append, not_or]
    exact ⟨hhead, amp_notMem_formPair first⟩
  have hlines : ∀ line ∈ rest.map formPair, 0x26 ∉ line := by
    intro line hline
    obtain ⟨p, -, rfl⟩ := List.mem_map.mp hline
    exact amp_notMem_formPair p
  have hno : ∀ line ∈ rest.map formPair, ¬ ascii "client_secret=" <+: line := by
    intro line hline
    obtain ⟨p, hp, rfl⟩ := List.mem_map.mp hline
    exact hname p (List.mem_cons_of_mem _ hp)
  have hfirst := firstAt_joinLines hfront List.not_mem_nil
    (show 0x26 ∉ ascii "client_secret=" by decide) hlines hno (formEncode (utf8 secret))
  simpa only [formQuery_joinLines, List.append_assoc, List.length_append, List.nil_append,
    List.cons_append, Nat.add_assoc] using hfirst

theorem tokenRequest_github {head : Bytes} (hhead : 0x26 ∉ head)
    (clientId code redirectUri secret : String) (verifier : Bytes) {session : TokenSession}
    (hfield : session.secretField = some (ascii "client_secret")) {l : Layout} :
    Layout.tokenRequest (shownOf head clientId code redirectUri verifier ++ hiddenOf secret)
        session = .ok l ↔
      l = Layout.revealing [⟨0, (shownOf head clientId code redirectUri verifier).length⟩]
        (shownOf head clientId code redirectUri verifier ++ hiddenOf secret).length := by
  have hfirst := firstAt_secret hhead clientId code redirectUri secret verifier
  rw [Layout.tokenRequest_some hfield]
  constructor
  · rintro ⟨p, hp, rfl⟩
    rw [hp.unique hfirst]
  · rintro rfl
    exact ⟨_, hfirst, rfl⟩

theorem revealing_front {x y : Bytes} (hx : x ≠ []) (hy : y ≠ []) :
    let l := Layout.revealing [⟨0, x.length⟩] (x ++ y).length
    l.Accounts (x ++ y).length ∧ l.reveal = [⟨0, x.length⟩] ∧
      l.commit = [⟨x.length, (x ++ y).length⟩] := by
  have hxlen := List.length_pos_of_ne_nil hx
  have hlen : x.length ≤ (x ++ y).length := by simp
  obtain ⟨hacc, hreveal⟩ := Layout.revealing_one hxlen hlen
  refine ⟨hacc, hreveal, ?_⟩
  rw [Layout.revealing_commit]
  simp [Layout.sortByStart, complement, complementFrom, hy]

theorem slice_front (x y : Bytes) : slice (x ++ y) ⟨0, x.length⟩ = x := by
  rw [slice, Nat.sub_zero, List.drop_zero, List.take_left]

theorem slice_back (x y : Bytes) : slice (x ++ y) ⟨x.length, (x ++ y).length⟩ = y := by
  rw [slice, List.drop_left, List.length_append, Nat.add_sub_cancel_left, List.take_length]

/-- Whatever stands before GitHub's body, so long as no ampersand does, the layout of the token
request accounts for every byte, hides the secret and nothing else, and what it shows reads as
everything that was sent but the secret. -/
theorem tokenRequest_hides_secret (keccak256 sha256 : Bytes → ByteArrayOf 32) (head : Bytes)
    (hhead : 0x26 ∉ head) (session : TokenSession)
    (hfield : session.secretField = some (ascii "client_secret"))
    (clientId code redirectUri secret : String) :
    let verifier := codeVerifier keccak256 sha256
    let sent := head ++ tokenBody .github clientId code redirectUri secret verifier
    ∃ l body, Layout.tokenRequest sent session = .ok l ∧ l.Accounts sent.length ∧
      l.reveal.map (slice sent) = [head ++ body] ∧
      decodePairs body = publicPairs clientId code redirectUri verifier ∧
      l.commit.map (slice sent) = [0x26 :: formPair (secretPair secret)] := by
  intro verifier sent
  have hverifier : ∀ b ∈ verifier, isUnreserved b = true := isUnreserved_base64url _
  have hsent : sent = shownOf head clientId code redirectUri verifier ++ hiddenOf secret :=
    head_append_tokenBody head clientId code redirectUri secret hverifier
  obtain ⟨hacc, hreveal, hcommit⟩ := revealing_front
    (shownOf_ne_nil head clientId code redirectUri verifier) (hiddenOf_ne_nil secret)
  rw [hsent]
  refine ⟨_, formQuery (publicPairs clientId code redirectUri verifier),
    (tokenRequest_github hhead clientId code redirectUri secret verifier hfield).mpr rfl,
    hacc, ?_, ?_, ?_⟩
  · rw [hreveal, List.map_singleton, slice_front]
    rfl
  · have htext := text_tokenPairs .github clientId code redirectUri secret hverifier
    rw [tokenPairs_github] at htext
    exact decodePairs_formQuery (publicPairs_ne_nil clientId code redirectUri verifier) fun p hp =>
      htext p (List.mem_append_left _ hp)
  · rw [hcommit, List.map_singleton, slice_back]
    rfl

theorem tokenRequest_hides_secret_run :
    let zeros : Bytes → ByteArrayOf 32 := fun _ => ⟨List.replicate 32 0, rfl⟩
    let sent := ascii "POST /login/oauth/access_token HTTP/1.1\r\n\r\n" ++
      tokenBody .github "client" "code" "http://localhost/cb" "hidden&more"
        (codeVerifier zeros zeros)
    ∃ l body, Layout.tokenRequest sent ⟨some (ascii "client_secret")⟩ = .ok l ∧
      l.Accounts sent.length ∧
      l.reveal.map (slice sent) =
        [ascii "POST /login/oauth/access_token HTTP/1.1\r\n\r\n" ++ body] ∧
      decodePairs body =
        publicPairs "client" "code" "http://localhost/cb" (codeVerifier zeros zeros) ∧
      l.commit.map (slice sent) = [0x26 :: formPair (secretPair "hidden&more")] :=
  tokenRequest_hides_secret _ _ (ascii "POST /login/oauth/access_token HTTP/1.1\r\n\r\n")
    (by decide) _ rfl "client" "code" "http://localhost/cb" "hidden&more"

end Libid.Tlsn
