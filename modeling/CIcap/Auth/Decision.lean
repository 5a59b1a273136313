import CIcap.Codec.Base64

/-! # What basic authentication decides on

Access should be granted only for a decoded value `user:password` whose password is the one
stored for the user, whatever the memory of the credentials object held before. The password
buffer of a value without a colon is never written, so for such a value the decision is taken
on old memory; and a value that is longer than the buffers is compared in part.
`basic_decision_iff` says for which values and tables the decision is right.
-/

namespace CIcap

open CText

variable (cfg : AuthConfig)

/-- The password is the one stored for the user: the same text, or for encrypted passwords a
text with the stored encryption. A user of the table without a password has the empty one. -/
def StoredFor (user pass : List UInt8) : Prop :=
  ∃ search vals, cfg.usersDb = some search ∧ search user = some vals ∧
    match vals with
    | [] => pass = []
    | stored :: _ =>
      match cfg.cryptR, cfg.passwordsEncrypted with
      | some crypt, true => crypt pass stored = some stored
      | _, _ => pass = stored

theorem strcmpAccess_eq_allow {a b : List UInt8} : strcmpAccess a b = .allow ↔ a = b := by
  unfold strcmpAccess
  split <;> simp_all

/-- The authenticator grants access for the stored password and for no other. -/
theorem authenticate_eq_allow (data : AuthData) :
    basicSimpleDbAuthenticate cfg data = .allow ↔ StoredFor cfg data.httpUser data.httpPass := by
  unfold basicSimpleDbAuthenticate StoredFor
  cases hdb : cfg.usersDb with
  | none => simp
  | some search =>
    cases hs : search data.httpUser with
    | none => simp [hs]
    | some vals =>
      cases vals with
      | nil => simp [hs]
      | cons stored rest =>
        cases hc : cfg.cryptR with
        | none => simp [hs, strcmpAccess_eq_allow]
        | some crypt =>
          cases he : cfg.passwordsEncrypted with
          | false => simp [hs, strcmpAccess_eq_allow]
          | true =>
            cases hp : crypt data.httpPass stored <;>
              simp [hs, hp, strcmpAccess_eq_allow]

theorem authenticate_ne_unknown (data : AuthData) :
    basicSimpleDbAuthenticate cfg data ≠ .unknown := by
  unfold basicSimpleDbAuthenticate
  repeat' split
  all_goals first | (unfold strcmpAccess; split <;> simp) | simp

theorem callAuthenticators_eq {auths : List Authenticator} (h : auths ≠ []) (data : AuthData) :
    callAuthenticators cfg auths data = basicSimpleDbAuthenticate cfg data := by
  cases auths with
  | nil => exact absurd rfl h
  | cons a rest =>
    exact if_pos (authenticate_ne_unknown cfg data)

/-! ## The way to the check -/

/-- The credentials part of the header, when the request gets as far as the password check. -/
def authLine (useMethod : Option (List UInt8)) (req : AuthReq) : Option (List UInt8) :=
  let useMethod := useMethod.getD cfg.defaultAuthMethod
  if isBasicMethod useMethod then
    (req.requestHeader (authorHeader req)).bind fun methodStr =>
      let len := (methodStr.takeWhile (· ≠ 32)).length
      if 32 ∈ methodStr ∧ strncasecmpEq methodStr useMethod len then
        some (methodStr.drop (len + 1))
      else none
  else none

/-- The decision of `http_authenticate` is that of the authenticators, and a refusal for a
request that does not get that far. -/
theorem httpAuthenticate_fst {useMethod : Option (List UInt8)}
    (hbasic : ¬ (cfg.allowRemoteProxyUsers ∧ useMethod = none)) (req : AuthReq) (heap : Heap) :
    (httpAuthenticate cfg useMethod req heap).1 =
      match authLine cfg useMethod req with
      | none => .deny
      | some line => callAuthenticators cfg cfg.authenticators (basicCreateAuthData line heap) := by
  unfold httpAuthenticate authLine
  rw [if_neg hbasic]
  cases hm : isBasicMethod (useMethod.getD cfg.defaultAuthMethod) with
  | false => simp [hm]
  | true =>
    cases hv : req.requestHeader (authorHeader req) with
    | none => simp [hm]
    | some methodStr =>
      by_cases hsp : (32 : UInt8) ∈ methodStr
      · cases hcmp : strncasecmpEq methodStr (useMethod.getD cfg.defaultAuthMethod)
          (methodStr.takeWhile (· ≠ 32)).length with
        | false => simp only [decide_not] at hcmp; simp [hcmp]
        | true =>
          simp only [decide_not] at hcmp
          simp only [hm, hsp, hcmp, decide_not, Option.bind_some, if_true, and_self]
          cases callAuthenticators cfg cfg.authenticators _ <;> rfl
      · simp [hsp]

/-! ## The decoded value -/

/-- The value the credentials stand for, as a C string. -/
def decodedText (line : List UInt8) : List UInt8 := cstr (base64Value line)

/-- What the decode buffer keeps of the value. -/
def keptText (line : List UInt8) : List UInt8 := (decodedText line).take 510

theorem cstr_base64Decode (line : List UInt8) :
    cstr (base64Decode line (maxUsernameLen + httpMaxPassLen + 2)) = keptText line := by
  rw [base64Decode_eq_take, cstr_take]
  rfl

theorem splitColon_eq_some {s user pass : List UInt8} :
    splitColon s = some (user, pass) ↔ s = user ++ 58 :: pass ∧ 58 ∉ user := by
  induction s generalizing user with
  | nil => simp [splitColon]
  | cons b s ih =>
    rw [splitColon]
    by_cases hb : b = 58
    · cases user with
      | nil => simp [hb]
      | cons c user =>
        rw [if_pos hb]
        constructor
        · intro h
          simp at h
        · rintro ⟨h, hu⟩
          obtain ⟨rfl, -⟩ := List.cons.inj h
          exact absurd hb.symm (List.ne_of_not_mem_cons hu)
    · cases user with
      | nil => simp [hb]
      | cons c user =>
        rw [if_neg hb, Option.map_eq_some_iff]
        constructor
        · rintro ⟨⟨u, p⟩, h, heq⟩
          obtain ⟨⟨rfl, rfl⟩, rfl⟩ : (b = c ∧ u = user) ∧ p = pass := by simpa using heq
          obtain ⟨rfl, hu⟩ := ih.mp h
          exact ⟨rfl, by simpa [Ne.symm hb] using hu⟩
        · rintro ⟨h, hu⟩
          obtain ⟨rfl, rfl⟩ := List.cons.inj h
          refine ⟨(user, pass), ih.mpr ⟨rfl, fun hin => hu ?_⟩, rfl⟩
          exact List.mem_cons_of_mem _ hin

/-! ## The decision -/

/-- The value is a user of the table and the password stored for that user. -/
def StoredWhole (line : List UInt8) : Prop :=
  ∃ user pass, decodedText line = user ++ 58 :: pass ∧ 58 ∉ user ∧ StoredFor cfg user pass

/-- When the decision on a value is right. A value with a colon in the part that is kept is
checked with the user name and the password cut to 255 bytes, so it must fit, or else the cut
credentials must not be stored ones unless the whole ones are. A value without a colon is
checked with old memory for a password, so the check must come out the same for every content
of that memory, and not in favour. -/
def DecisionSettled (line : List UInt8) : Prop :=
  match splitColon (keptText line) with
  | some (user, pass) =>
    ((decodedText line).length ≤ 510 ∧ user.length ≤ 255 ∧ pass.length ≤ 255) ∨
    (StoredFor cfg (user.take 255) (pass.take 255) → StoredWhole cfg line)
  | none => ∃ res, (∀ heap : Heap, basicSimpleDbAuthenticate cfg
      ⟨(keptText line).take 255, cstr heap.httpPass⟩ = res) ∧
        (res = .allow → StoredWhole cfg line)

/-- **The decision on a value.** It follows the stored password and not the memory exactly when
the value is settled. -/
theorem decisionSettled_iff (line : List UInt8) :
    ((∀ heap, basicSimpleDbAuthenticate cfg (basicCreateAuthData line heap) = .allow →
        StoredWhole cfg line) ∧
      ∀ heap heap', basicSimpleDbAuthenticate cfg (basicCreateAuthData line heap) =
        basicSimpleDbAuthenticate cfg (basicCreateAuthData line heap')) ↔
    DecisionSettled cfg line := by
  -- some memory, for the decisions that do not depend on it
  let zero := Heap.after []
  unfold DecisionSettled
  cases hsp : splitColon (keptText line) with
  | none =>
    -- the password is old memory
    simp only [basicCreateAuthData, cstr_base64Decode, hsp]
    constructor
    · rintro ⟨hsound, hsame⟩
      exact ⟨_, fun heap => hsame heap zero, hsound zero⟩
    · rintro ⟨res, hres, hallow⟩
      refine ⟨fun heap h => hallow ?_, fun heap heap' => ?_⟩
      · exact (hres heap).symm.trans h
      · exact (hres heap).trans (hres heap').symm
  | some up =>
    -- the credentials do not depend on the memory
    simp only [basicCreateAuthData, cstr_base64Decode, hsp, authenticate_eq_allow]
    constructor
    · rintro ⟨hsound, -⟩
      exact Or.inr (hsound zero)
    · intro h
      refine ⟨fun _ hst => ?_, fun _ _ => trivial⟩
      rcases h with hfit | hcut
      · -- the value is checked as it is
        obtain ⟨hlen, hu, hp⟩ := hfit
        change StoredFor cfg (up.1.take 255) (up.2.take 255) at hst
        rw [List.take_of_length_le hu, List.take_of_length_le hp] at hst
        rw [keptText, List.take_of_length_le hlen] at hsp
        obtain ⟨hdec, hmem⟩ := splitColon_eq_some.mp hsp
        exact ⟨_, _, hdec, hmem, hst⟩
      · exact hcut hst

/-- A table with one user, and the request of a client that sends the value in the header. -/
def oneUser (user pass : String) : AuthConfig where
  usersDb := some (fun key => if key = bytes user then some [bytes pass] else none)

def valueRequest (value : String) : AuthReq where
  protocolHttp := true
  requestHeader name := if name = bytes "Authorization" then some (bytes value) else none

theorem cstr_padded {s : List UInt8} (h : 0 ∉ s) : cstr (padded s) = s := by
  unfold cstr
  fun_induction padded s with
  | case1 | case2 | case3 => grind [List.takeWhile_cons]
  | case4 => rfl

/-- **Credentials.** A request with the base64 text of `user:pass` is granted access exactly when the
table has this password for the user, whatever the memory held. Both texts fit the buffers. -/
theorem encoded_credentials_iff {useMethod : Option (List UInt8)} {req : AuthReq}
    (hbasic : ¬ (cfg.allowRemoteProxyUsers ∧ useMethod = none)) (hauth : cfg.authenticators ≠ [])
    {user pass text : List UInt8} (htext : text = user ++ 58 :: pass) (hcolon : 58 ∉ user)
    (hzero : 0 ∉ text) (huser : user.length ≤ 255) (hpass : pass.length ≤ 255)
    (hlen : text.length ≤ 510) (hline : authLine cfg useMethod req = some (base64Text text))
    (heap : Heap) :
    (httpAuthenticate cfg useMethod req heap).1 = .allow ↔ StoredFor cfg user pass := by
  have hkept : keptText (base64Text text) = text := by
    unfold keptText decodedText
    rw [base64Value_text, cstr_padded hzero, List.take_of_length_le hlen]
  have hdata : basicCreateAuthData (base64Text text) heap = ⟨user, pass⟩ := by
    unfold basicCreateAuthData
    simp only [cstr_base64Decode, hkept, splitColon_eq_some.mpr ⟨htext, hcolon⟩]
    exact congrArg₂ _ (List.take_of_length_le huser) (List.take_of_length_le hpass)
  rw [httpAuthenticate_fst cfg hbasic, hline]
  dsimp only
  rw [callAuthenticators_eq cfg hauth, authenticate_eq_allow, hdata]

theorem encoded_credentials_bob_ab :
    (httpAuthenticate (oneUser "bob" "ab") none (valueRequest "Basic Ym9iOmFi") (.after [])).1 =
      .allow ↔ StoredFor (oneUser "bob" "ab") (bytes "bob") (bytes "ab") :=
  encoded_credentials_iff _ (by decide) (by decide) rfl (by decide) (by decide) (by decide)
    (by decide) (by decide) (by decide +kernel) _

end CIcap
