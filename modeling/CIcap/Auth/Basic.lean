import CIcap.Lib.CText

/-! # HTTP basic authentication

The model of `http_auth.c`: the remote proxy user header, the choice of the method, the basic
method with its base64 decoder and the `basic_simple_db` authenticator. The credentials object
is allocated with `malloc`; what its password buffer held before is an input of the model
(`Heap`), so that a decision that depends on it is visible.
-/

namespace CIcap

open CText List

/-- `MAX_USERNAME_LEN` -/
def maxUsernameLen : Nat := 255

/-- `HTTP_MAX_PASS_LEN` -/
def httpMaxPassLen : Nat := 256

/-! ## The base64 decoder -/

/-- `base64_table`: the six bits of a character, 255 for a character that has none. -/
def base64Table (b : UInt8) : UInt8 :=
  if 65 ≤ b ∧ b ≤ 90 then b - 65
  else if 97 ≤ b ∧ b ≤ 122 then b - 97 + 26
  else if 48 ≤ b ∧ b ≤ 57 then b - 48 + 52
  else if b = 43 then 62
  else if b = 47 then 63
  else if b = 61 then 0
  else 255

/-- The four characters of a group all have six bits. -/
def base64Group (a b c d : UInt8) : Bool :=
  !(base64Table a > 63 || base64Table b > 63 || base64Table c > 63 || base64Table d > 63)

def base64Bytes (a b c d : UInt8) : List UInt8 :=
  [base64Table a <<< 2 ||| base64Table b >>> 4, base64Table b <<< 4 ||| base64Table c >>> 2,
    base64Table c <<< 6 ||| base64Table d]

/-- `ci_base64_decode` into a buffer of `i` bytes, without the terminating zero. A string with
less than four characters left ends the loop, since its terminating zero is no character of
the table. -/
def base64Decode : List UInt8 → Nat → List UInt8
  | a :: b :: c :: d :: str, i =>
    if 3 < i ∧ base64Group a b c d then base64Bytes a b c d ++ base64Decode str (i - 3)
    else []
  | _, _ => []

/-- What the groups of a value stand for, with no buffer to limit it. -/
def base64Value : List UInt8 → List UInt8
  | a :: b :: c :: d :: str =>
    if base64Group a b c d then base64Bytes a b c d ++ base64Value str else []
  | _ => []

/-- The decoder stops at the last group that fits with the terminating zero. -/
theorem base64Decode_eq_take (str : List UInt8) (i : Nat) :
    base64Decode str i = (base64Value str).take (3 * ((i - 1) / 3)) := by
  fun_induction base64Decode str i with
  | case1 a b c d str i h ih =>
    obtain ⟨hi, hg⟩ := h
    have hlen : (base64Bytes a b c d).length = 3 := rfl
    have hn : 3 * ((i - 1) / 3) = 3 + 3 * ((i - 3 - 1) / 3) := by omega
    rw [base64Value, if_pos hg, ih, hn, ← hlen, take_length_add_append]
  | case2 a b c d str i h =>
    by_cases hg : base64Group a b c d = true
    · have hi : 3 * ((i - 1) / 3) = 0 := by
        have : ¬ 3 < i := fun hi => h ⟨hi, hg⟩
        omega
      rw [hi, take_zero]
    · rw [base64Value, if_neg hg, take_nil]
  | case3 str i h =>
    have hnil : base64Value str = [] := by
      rw [base64Value]
      exact h
    rw [hnil, take_nil]

/-! ## Credentials -/

/-- `struct http_basic_auth_data`, its two buffers as the C strings they hold. -/
structure AuthData where
  httpUser : List UInt8
  httpPass : List UInt8
  deriving DecidableEq

/-- What the memory of a new `http_pass` buffer holds before anything is written. -/
structure Heap where
  httpPass : List UInt8
  size : httpPass.length = httpMaxPassLen + 1

/-- Memory that was last used for a text, and is zero behind it. -/
def Heap.after (old : List UInt8) : Heap where
  httpPass := old.take (httpMaxPassLen + 1) ++
    replicate (httpMaxPassLen + 1 - (old.take (httpMaxPassLen + 1)).length) 0
  size := by
    have := length_take_le (httpMaxPassLen + 1) old
    rw [length_append, length_replicate]
    omega

/-- `strchr(s, ':')`, as the text before the first colon and the text behind it. -/
def splitColon : List UInt8 → Option (List UInt8 × List UInt8)
  | [] => none
  | b :: s => if b = 58 then some ([], s) else (splitColon s).map (fun x => (b :: x.1, x.2))

/-- `basic_create_auth_data`. The password buffer is written only when the decoded text has a
colon, and its last but one byte is then zeroed. -/
def basicCreateAuthData (authLine : List UInt8) (heap : Heap) : AuthData :=
  let decHttpUser := cstr (base64Decode authLine (maxUsernameLen + httpMaxPassLen + 2))
  match splitColon decHttpUser with
  | some (user, pass) =>
    { httpUser := user.take maxUsernameLen, httpPass := pass.take (httpMaxPassLen - 1) }
  | none =>
    { httpUser := decHttpUser.take maxUsernameLen, httpPass := cstr heap.httpPass }

/-! ## The authenticator -/

/-- The answers of an access check. `fault` stands for the crash of `strcmp` when `crypt_r`
rejects the stored password and returns no text. -/
inductive Access where
  | unknown
  | deny
  | allow
  | fault
  deriving DecidableEq

/-- The authenticators of the server for the basic method. -/
inductive Authenticator where
  | basicSimpleDb
  deriving DecidableEq

/-- The configuration: the variables of `http_auth.c`, the user table as its search function
(the values found for a key, if there is such a key) and, in a build with `HAVE_CRYPT_R`, the
function `crypt_r`. -/
structure AuthConfig where
  allowRemoteProxyUsers : Bool := false
  remoteProxyUserHeader : List UInt8 := bytes "X-Authenticated-User"
  remoteProxyUserHeaderEncoded : Bool := true
  defaultAuthMethod : List UInt8 := bytes "basic"
  basicAuthentication : List UInt8 := bytes "Basic realm=\"Basic authentication\""
  authenticators : List Authenticator := [.basicSimpleDb]
  usersDb : Option (List UInt8 → Option (List (List UInt8))) := none
  passwordsEncrypted : Bool := true
  cryptR : Option (List UInt8 → List UInt8 → Option (List UInt8)) := none

variable (cfg : AuthConfig)

/-- `strcmp(a, b) != 0` decides between the two answers. -/
def strcmpAccess (a b : List UInt8) : Access := if a = b then .allow else .deny

/-- `basic_simple_db_athenticate` -/
def basicSimpleDbAuthenticate (data : AuthData) : Access :=
  match cfg.usersDb with
  | none => .deny
  | some search =>
    match search data.httpUser with
    | none => .deny
    | some [] => if data.httpPass ≠ [] then .deny else .allow
    | some (pass :: _) =>
      match cfg.cryptR, cfg.passwordsEncrypted with
      | some crypt, true =>
        match crypt data.httpPass pass with
        | some passEnc => strcmpAccess passEnc pass
        | none => .fault
      | _, _ => strcmpAccess data.httpPass pass

def Authenticator.authenticate : Authenticator → AuthData → Access
  | .basicSimpleDb => basicSimpleDbAuthenticate cfg

/-- `call_authenticators`: the first answer that is not `CI_ACCESS_UNKNOWN`. -/
def callAuthenticators : List Authenticator → AuthData → Access
  | [], _ => .deny
  | a :: rest, data =>
    if a.authenticate cfg data ≠ .unknown then a.authenticate cfg data
    else callAuthenticators rest data

/-! ## The request -/

/-- What authentication reads and writes of a request. The header list is its lookup function
`ci_headers_value`. -/
structure AuthReq where
  protocolHttp : Bool
  requestHeader : List UInt8 → Option (List UInt8)
  user : List UInt8 := []
  xheaders : List (List UInt8) := []
  authRequired : Bool := false

/-- `strncasecmp(s, t, len) == 0` for two C strings. -/
def strncasecmpEq (s t : List UInt8) (len : Nat) : Bool :=
  (s.take len).map lower = (t.take len).map lower

/-- `get_authentication_schema`: the methods are looked up without regard to case, and `basic`
is the one the server has. -/
def isBasicMethod (method : List UInt8) : Bool := method.map lower = bytes "basic"

def authorHeader (req : AuthReq) : List UInt8 :=
  if req.protocolHttp then bytes "Authorization" else bytes "Proxy-Authorization"

/-- The remote proxy user header replaces authentication. -/
def remoteProxyUser (req : AuthReq) : Access × AuthReq :=
  match req.requestHeader cfg.remoteProxyUserHeader with
  | some username =>
    let user :=
      if cfg.remoteProxyUserHeaderEncoded then cstr (base64Decode username maxUsernameLen)
      else username.take maxUsernameLen
    (.allow, { req with user := user })
  | none => (.deny, req)

/-- The challenge added to a denied request. -/
def askForCredentials (req : AuthReq) : AuthReq :=
  let authHeader :=
    if req.protocolHttp then bytes "WWW-Authenticate" else bytes "Proxy-Authenticate"
  { req with
    xheaders := req.xheaders ++ [(authHeader ++ bytes ": " ++ cfg.basicAuthentication).take 1023]
    authRequired := true }

/-- `http_authenticate` -/
def httpAuthenticate (useMethod : Option (List UInt8)) (req : AuthReq) (heap : Heap) :
    Access × AuthReq :=
  if cfg.allowRemoteProxyUsers ∧ useMethod = none then remoteProxyUser cfg req
  else
    let useMethod := useMethod.getD cfg.defaultAuthMethod
    if !isBasicMethod useMethod then (.deny, req)
    else
      match req.requestHeader (authorHeader req) with
      | none => (.deny, askForCredentials cfg req)
      | some methodStr =>
        if 32 ∉ methodStr then (.deny, req)
        else
          let len := (methodStr.takeWhile (· ≠ 32)).length
          if !strncasecmpEq methodStr useMethod len then (.deny, req)
          else
            let data := basicCreateAuthData (methodStr.drop (len + 1)) heap
            let req := { req with user := data.httpUser }
            match callAuthenticators cfg cfg.authenticators data with
            | .deny => (.deny, askForCredentials cfg req)
            | res => (res, req)

end CIcap
