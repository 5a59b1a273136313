import Mathlib.Data.List.TakeWhile
import CIcap.Request.Frame

/-! # The request line

The request line that the client library writes (`client_create_request` of `client.c`) and what
the request-line parser of the server makes of it. The client formats the line in a buffer of 256
bytes, so a long one is cut; the parser then finds no version.
-/

namespace CIcap

open CText List

variable {σ : Type} (cfg : Config σ)

/-- `ci_method_string` -/
def ReqType.method : ReqType → List UInt8
  | options => bytes "OPTIONS"
  | reqmod => bytes "REQMOD"
  | respmod => bytes "RESPMOD"

/-- The server and service names that `ci_client_request` keeps. -/
def ciClientRequest (server service : List UInt8) : List UInt8 × List UInt8 :=
  (server.take maxHostnameLen, service.take maxServiceName)

/-- `snprintf` into a buffer of `size` bytes. -/
def snprintf (size : Nat) (text : List UInt8) : List UInt8 := text.take (size - 1)

/-- The request line of `client_create_request`. -/
def requestLine (type : ReqType) (server service : List UInt8) : List UInt8 :=
  snprintf 256 (type.method ++ bytes " icap://" ++ server ++ bytes "/" ++ service ++
    bytes " ICAP/1.0")

def serviceName (service : List UInt8) : List UInt8 := service.takeWhile (· ≠ 63)

def serviceArgs (service : List UInt8) : List UInt8 := (service.dropWhile (· ≠ 63)).drop 1

/-- The result of `parse_request` with the given method, server, service name and arguments. -/
structure ParsedAs (type : ReqType) (server name args : List UInt8) (r : Ec × Req σ) : Prop where
  accepted : r.1 ≠ .ec400
  type : r.2.type = some type
  server : r.2.reqServer = server
  service : r.2.service = name
  args : r.2.args = args

/-! ## The parser -/

def versionText : List UInt8 := bytes " ICAP/1.0"

theorem parseRequest_url (req : Req σ) (type : ReqType) (t : List UInt8) :
    parseRequest cfg req (type.method ++ (bytes " icap://" ++ t)) =
      match takeService { req with
          type := some type
          reqServer := (t.takeWhile (fun b => b ≠ 47 && b ≠ 32)).take maxHostnameLen }
          (t.dropWhile (fun b => b ≠ 47 && b ≠ 32)) with
      | (req, none) => (.ec400, req)
      | (req, some s) =>
        if !versionOk (s.dropWhile (· = 32)) then (.ec400, req)
        else
          let req := findModule cfg req
          match req.mod with
          | none => (.ec404, req)
          | some m => if !m.supports type ∧ type ≠ .options then (.ec405, req) else (.ec100, req) := by
  cases type <;> rfl

/-- The request with a service name, where there is one. -/
def Req.named (req : Req σ) (name : List UInt8) : Req σ :=
  if name.take maxServiceName ≠ [] then { req with service := name.take maxServiceName } else req

/-- The arguments of the service, if the text goes on with them. -/
def Req.withArgs (req : Req σ) (s : List UInt8) : Req σ × Option (List UInt8) :=
  match takeArgs req s with
  | some (req, s) => (req, some s)
  | none => (req, none)

/-- What is read behind the name of the service. -/
def Req.behindName (req : Req σ) : List UInt8 → Req σ × Option (List UInt8)
  | 63 :: s => req.withArgs s
  | s => (req, some s)

theorem takeService_eq (req : Req σ) (s : List UInt8) : takeService req (47 :: s) =
    (req.named (s.takeWhile (fun b => b ≠ 32 && b ≠ 63))).behindName
      (s.dropWhile (fun b => b ≠ 32 && b ≠ 63)) := rfl

/-- A text up to the first byte that does not satisfy a condition. -/
theorem span_append {p : UInt8 → Bool} {l v : List UInt8} (hl : ∀ b ∈ l, p b = true)
    (hv : ∀ b ∈ v.head?, p b = false) :
    (l ++ v).takeWhile p = l ∧ (l ++ v).dropWhile p = v := by
  rw [takeWhile_append_of_pos hl, dropWhile_append_of_pos hl]
  cases v with
  | nil => simp
  | cons b v =>
    have hb : p b = false := hv b rfl
    simp [hb]

theorem serviceName_append {name args : List UInt8} (h : 63 ∉ name) :
    serviceName (name ++ 63 :: args) = name ∧ serviceArgs (name ++ 63 :: args) = args := by
  have hspan := @span_append (fun b => decide (b ≠ 63)) name (63 :: args)
    (fun b hb => by simpa using ne_of_mem_of_not_mem hb h) (by simp)
  refine ⟨hspan.1, ?_⟩
  unfold serviceArgs
  rw [hspan.2]
  rfl

theorem serviceName_of_not_mem {service : List UInt8} (h : 63 ∉ service) :
    serviceName service = service ∧ serviceArgs service = [] := by
  have hspan := @span_append (fun b => decide (b ≠ 63)) service []
    (fun b hb => by simpa using ne_of_mem_of_not_mem hb h) (by simp)
  rw [append_nil] at hspan
  refine ⟨hspan.1, ?_⟩
  unfold serviceArgs
  rw [hspan.2]
  rfl

/-- The service part of a line: a name, arguments, and what follows the blank. -/
theorem takeService_service (req : Req σ) {service v : List UInt8} (hs : 32 ∉ service)
    (hv : v = [] ∨ ∃ v', v = 32 :: v') (hargs : req.args = []) :
    takeService req (47 :: (service ++ v)) =
      if 63 ∈ service then
        if v = [] then (req.named (serviceName service), none)
        else ({ req.named (serviceName service) with
          args := (serviceArgs service).take maxServiceArgs }, some v)
      else (req.named (serviceName service), some v) := by
  have hstop : ∀ b ∈ v.head?, (decide (b ≠ 32) && decide (b ≠ 63)) = false := by
    rcases hv with rfl | ⟨v', rfl⟩ <;> simp
  by_cases hq : 63 ∈ service
  · rw [if_pos hq]
    obtain ⟨name, args, rfl, hname⟩ := eq_append_cons_of_mem hq
    obtain ⟨hn, ha⟩ := @serviceName_append name args hname
    have hspan := @span_append (fun b => decide (b ≠ 32) && decide (b ≠ 63)) name (63 :: (args ++ v))
      (by
        intro b hb
        have h32 : b ≠ 32 := fun h => hs (by simp [← h, hb])
        simp [h32, ne_of_mem_of_not_mem hb hname])
      (by simp)
    have hassoc : name ++ 63 :: args ++ v = name ++ 63 :: (args ++ v) := by simp
    have hnamed : (req.named name).args = [] := by
      unfold Req.named
      split <;> exact hargs
    have hno : 32 ∉ args := fun h => hs (by simp [h])
    rw [hassoc, takeService_eq, hspan.2, hspan.1, hn, ha]
    show (req.named name).withArgs (args ++ v) = _
    unfold Req.withArgs takeArgs
    rcases hv with rfl | ⟨v', rfl⟩
    · rw [if_neg (by simpa using hno), if_pos rfl]
    · have hspan' := @span_append (fun b => decide (b ≠ 32)) args (32 :: v')
        (fun b hb => by simpa using ne_of_mem_of_not_mem hb hno) (by simp)
      rw [hspan'.1, hspan'.2, hnamed]
      simp
  · rw [if_neg hq]
    have hspan := @span_append (fun b => decide (b ≠ 32) && decide (b ≠ 63)) service v (by
        intro b hb
        simp [ne_of_mem_of_not_mem hb hs, ne_of_mem_of_not_mem hb hq])
      hstop
    rw [takeService_eq, hspan.2, hspan.1, (serviceName_of_not_mem hq).1]
    rcases hv with rfl | ⟨v', rfl⟩ <;> rfl

/-! ## The line -/

theorem requestLine_eq (type : ReqType) (server service : List UInt8) :
    requestLine type server service = type.method ++ (bytes " icap://" ++
      (server ++ 47 :: (service ++ versionText)).take (247 - type.method.length)) := by
  have hm : type.method.length ≤ 7 := by cases type <;> decide
  have hassoc : type.method ++ bytes " icap://" ++ server ++ bytes "/" ++ service ++
      bytes " ICAP/1.0" = type.method ++ (bytes " icap://" ++
        (server ++ 47 :: (service ++ versionText))) := by
    rw [show bytes "/" = [47] from rfl, versionText]
    simp
  have h8 : (bytes " icap://").length = 8 := by decide
  unfold requestLine snprintf
  rw [hassoc, take_append, take_of_length_le (by omega), take_append, take_of_length_le (by omega)]
  congr 3
  omega

section

variable (req : Req σ)
include req

/-- The server name of a line ends at the first slash or blank. -/
theorem parseRequest_reqServer (type : ReqType) (t : List UInt8) :
    (parseRequest cfg req (type.method ++ (bytes " icap://" ++ t))).2.reqServer =
      (t.takeWhile (fun b => b ≠ 47 && b ≠ 32)).take maxHostnameLen := by
  rw [parseRequest_url]
  generalize hr : ({ req with
    type := some type
    reqServer := (t.takeWhile (fun b => b ≠ 47 && b ≠ 32)).take maxHostnameLen } : Req σ) = r
  have hserver : r.reqServer = (t.takeWhile (fun b => b ≠ 47 && b ≠ 32)).take maxHostnameLen := by
    rw [← hr]
  have htake := (takeService_nameOnly r (t.dropWhile (fun b => b ≠ 47 && b ≠ 32))).reqServer_eq
  rw [← hserver, ← htake]
  split
  · rename_i heq
    rw [heq]
  rename_i heq
  rw [heq]
  split
  · rfl
  · dsimp only
    split
    · exact (findModule_nameOnly cfg _).reqServer_eq
    · split <;> exact (findModule_nameOnly cfg _).reqServer_eq

/-- A line that ends before the end of the version is not accepted. -/
theorem parseRequest_cut (type : ReqType) {server service : List UInt8}
    (hhost : ∀ b ∈ server, b ≠ 47 ∧ b ≠ 32) (hs : 32 ∉ service) (hargs : req.args = []) {k : Nat}
    (hk : k < server.length + service.length + 10) :
    (parseRequest cfg req (type.method ++ (bytes " icap://" ++
      (server ++ 47 :: (service ++ versionText)).take k))).1 = .ec400 := by
  have hpos : ∀ b ∈ server, (decide (b ≠ 47) && decide (b ≠ 32)) = true := by
    intro b hb
    simp [hhost b hb]
  have hversion : ∀ i < 9, versionOk ((versionText.take i).dropWhile (· = 32)) = false := by
    decide +kernel
  rw [parseRequest_url]
  by_cases hcut : k ≤ server.length
  · -- the line ends inside the server name
    have ht : (server ++ 47 :: (service ++ versionText)).take k = server.take k ++ [] := by
      rw [take_append_of_le_length hcut, append_nil]
    have hspan := @span_append (fun b => decide (b ≠ 47) && decide (b ≠ 32)) (server.take k) []
      (fun b hb => hpos b (mem_of_mem_take hb)) (by simp)
    rw [ht, hspan.2]
    rfl
  obtain ⟨j, hj⟩ : ∃ j, k = server.length + (j + 1) := ⟨k - server.length - 1, by omega⟩
  have ht : (server ++ 47 :: (service ++ versionText)).take k =
      server ++ 47 :: (service.take j ++ versionText.take (j - service.length)) := by
    rw [hj, take_length_add_append, take_succ_cons, take_append]
  have hspan := @span_append (fun b => decide (b ≠ 47) && decide (b ≠ 32)) server
    (47 :: (service.take j ++ versionText.take (j - service.length))) hpos (by simp)
  have hv : versionText.take (j - service.length) = [] ∨
      ∃ v', versionText.take (j - service.length) = 32 :: v' := by
    cases j - service.length with
    | zero => exact .inl rfl
    | succ i => exact .inr ⟨_, rfl⟩
  have hno : 32 ∉ service.take j := fun h => hs (mem_of_mem_take h)
  rw [ht, hspan.2, hspan.1]
  generalize hr : ({ req with
    type := some type
    reqServer := server.take maxHostnameLen } : Req σ) = r
  have hrargs : r.args = [] := by
    rw [← hr]
    exact hargs
  rw [takeService_service r hno hv hrargs]
  have hbad := hversion (j - service.length) (by omega)
  split_ifs
  · rfl
  · dsimp only
    rw [hbad]
    rfl
  · dsimp only
    rw [hbad]
    rfl

end

/-- The lookup of a service keeps the name and the arguments of the line: an empty name is not
replaced by the default service, and no alias brings other arguments. -/
structure LookupKeeps (name args : List UInt8) : Prop where
  named : name = [] → (cfg.defaultService.getD []).take maxServiceName = []
  aliased : name ≠ [] → cfg.findService name = none →
    ∀ m a, cfg.findServiceAlias name = some (m, a) → a ≠ [] → a.take maxServiceArgs = args

theorem findModule_keeps_iff (req : Req σ) :
    ((findModule cfg req).service = req.service ∧ (findModule cfg req).args = req.args) ↔
      LookupKeeps cfg req.service req.args := by
  by_cases hname : req.service = []
  · have hfm : (findModule cfg req).service = (cfg.defaultService.getD []).take maxServiceName ∧
        ((cfg.defaultService.getD []).take maxServiceName = [] →
          (findModule cfg req).args = req.args) := by
      unfold findModule
      dsimp only
      rw [if_pos hname]
      split
      · exact ⟨rfl, fun _ => rfl⟩
      · rename_i hne
        refine ⟨?_, fun h => absurd h hne⟩
        split
        · rfl
        · split <;> rfl
    constructor
    · rintro ⟨hs, -⟩
      exact ⟨fun _ => hfm.1.symm.trans (hs.trans hname), fun h => absurd hname h⟩
    · intro h
      have hnil := h.named hname
      exact ⟨hfm.1.trans (hnil.trans hname.symm), hfm.2 hnil⟩
  · unfold findModule
    rw [if_neg hname, if_neg hname]
    constructor
    · rintro ⟨-, ha⟩
      refine ⟨fun h => absurd h hname, fun _ hnone m a hal hne => ?_⟩
      rw [hnone, hal] at ha
      simpa [hne] using ha
    · intro h
      split
      · exact ⟨rfl, rfl⟩
      rename_i hnone
      split
      · exact ⟨rfl, rfl⟩
      · rename_i m a hal
        refine ⟨rfl, ?_⟩
        split
        · rename_i hne
          exact h.aliased hname hnone m a hal hne
        · rfl

/-- The client's line, not cut, as the parser reads it. -/
theorem parseRequest_whole (req : Req σ) (type : ReqType) {server service : List UInt8}
    (hhost : ∀ b ∈ server, b ≠ 47 ∧ b ≠ 32) (hs : 32 ∉ service)
    (hserver : server.length ≤ maxHostnameLen) (hservice : service.length ≤ maxServiceName)
    (hno : req.service = []) (hargs : req.args = []) :
    parseRequest cfg req (type.method ++ (bytes " icap://" ++
        (server ++ 47 :: (service ++ versionText)))) =
      let r := findModule cfg { req with
        type := some type
        reqServer := server
        service := serviceName service
        args := serviceArgs service }
      match r.mod with
      | none => (.ec404, r)
      | some m => if !m.supports type ∧ type ≠ .options then (.ec405, r) else (.ec100, r) := by
  have hspan := @span_append (fun b => decide (b ≠ 47) && decide (b ≠ 32)) server
    (47 :: (service ++ versionText)) (fun b hb => by simp [hhost b hb]) (by simp)
  have hname : (serviceName service).length ≤ maxServiceName :=
    le_trans ( takeWhile_prefix _).length_le hservice
  have hargsLen : (serviceArgs service).length ≤ maxServiceArgs := by
    unfold serviceArgs
    rw [length_drop]
    have := (dropWhile_suffix (fun b : UInt8 => decide (b ≠ 63)) (l := service)).length_le
    unfold maxServiceName at hservice
    unfold maxServiceArgs
    omega
  have hblank : versionText = [] ∨ ∃ v', versionText = 32 :: v' := .inr ⟨_, rfl⟩
  rw [parseRequest_url, hspan.1, hspan.2, take_of_length_le hserver]
  generalize hr : ({ req with type := some type, reqServer := server } : Req σ) = r
  have hrargs : r.args = [] := by
    rw [← hr]
    exact hargs
  have hnamed : r.named (serviceName service) = { r with service := serviceName service } := by
    unfold Req.named
    rw [take_of_length_le hname]
    split
    · rfl
    · rename_i hnil
      rw [not_not.mp hnil, ← hr, ← hno]
  rw [takeService_service r hs hblank hrargs, hnamed]
  by_cases hq : 63 ∈ service
  · rw [if_pos hq, take_of_length_le hargsLen]
    dsimp only
    rw [← hr]
    rfl
  · rw [if_neg hq, (serviceName_of_not_mem hq).2, ← hrargs]
    dsimp only
    rw [← hr]
    rfl

/-! ## The round trip -/

/-- The line is not cut, no byte of the server name ends it early, and the lookup of the service
keeps what the line says. -/
structure LineOk (type : ReqType) (server service : List UInt8) : Prop where
  fits : type.method.length + server.length + service.length + 18 ≤ 255
  host : ∀ b ∈ server, b ≠ 47 ∧ b ≠ 32
  lookup : LookupKeeps cfg (serviceName service) (serviceArgs service)

/-- The server reads from the client's line the same method, server, service and arguments exactly
when the line fits the client's buffer, the server name has no slash and no blank, and the lookup
of the service replaces neither the name nor the arguments. -/
theorem request_line_round_trip_iff (type : ReqType) (server service : List UInt8)
    (hserver : server.length ≤ 256) (hservice : service.length ≤ 255)
    (hspace : ∀ b ∈ service, isSpace b = false) (req : Req σ) (hno : req.service = [])
    (hargs : req.args = []) :
    ParsedAs type server (serviceName service) (serviceArgs service)
        (parseRequest cfg req (requestLine type (ciClientRequest server service).1
          (ciClientRequest server service).2)) ↔
      LineOk cfg type server service := by
  have hs : 32 ∉ service := fun h => absurd (hspace 32 h) (by decide)
  have hline : requestLine type (ciClientRequest server service).1
      (ciClientRequest server service).2 = requestLine type server service := by
    unfold ciClientRequest maxHostnameLen maxServiceName
    rw [take_of_length_le hserver, take_of_length_le hservice]
  rw [hline, requestLine_eq]
  by_cases hhost : ∀ b ∈ server, b ≠ 47 ∧ b ≠ 32
  swap
  · -- the parsed server name has neither byte
    refine ⟨fun h => absurd ?_ hhost, fun h => absurd h.host hhost⟩
    intro b hb
    rw [← h.server, parseRequest_reqServer] at hb
    simpa using mem_takeWhile_imp (mem_of_mem_take hb)
  by_cases hfits : type.method.length + server.length + service.length + 18 ≤ 255
  swap
  · have hcut := parseRequest_cut cfg req type hhost hs hargs
      (show 247 - type.method.length < server.length + service.length + 10 by omega)
    exact ⟨fun h => absurd hcut h.accepted, fun h => absurd h.fits hfits⟩
  have hlen : (server ++ 47 :: (service ++ versionText)).length =
      server.length + service.length + 10 := by
    have h9 : versionText.length = 9 := by decide
    simp only [length_append, length_cons]
    omega
  rw [take_of_length_le (by omega),
    parseRequest_whole cfg req type hhost hs hserver hservice hno hargs]
  generalize hr : ({ req with
    type := some type
    reqServer := server
    service := serviceName service
    args := serviceArgs service } : Req σ) = r
  have hkeeps := findModule_keeps_iff cfg r
  have hresult : ∃ ec, ec ≠ Ec.ec400 ∧ (match (findModule cfg r).mod with
      | none => (Ec.ec404, findModule cfg r)
      | some m =>
        if !m.supports type ∧ type ≠ .options then (.ec405, findModule cfg r)
        else (.ec100, findModule cfg r)) = (ec, findModule cfg r) := by
    split
    · exact ⟨_, by decide, rfl⟩
    · split <;> exact ⟨_, by decide, rfl⟩
  obtain ⟨ec, hec, heq⟩ := hresult
  rw [heq]
  have htype : (findModule cfg r).type = some type := by
    rw [findModule_nameOnly, ← hr]
  have hsrv : (findModule cfg r).reqServer = server := by
    rw [findModule_nameOnly, ← hr]
  have hrs : r.service = serviceName service := by rw [← hr]
  have hra : r.args = serviceArgs service := by rw [← hr]
  rw [hrs, hra] at hkeeps
  constructor
  · intro h
    exact ⟨hfits, hhost, hkeeps.mp ⟨h.service, h.args⟩⟩
  · intro h
    obtain ⟨hsv, har⟩ := hkeeps.mpr h.lookup
    exact ⟨hec, htype, hsrv, hsv, har⟩

theorem request_line_round_trip_echo :
    ParsedAs .reqmod (bytes "localhost") (bytes "echo") (bytes "a=1")
      (parseRequest ({ findService := fun _ => none } : Config Unit) .alloc
        (requestLine .reqmod (bytes "localhost") (bytes "echo?a=1"))) := by
  refine (request_line_round_trip_iff _ .reqmod (bytes "localhost") (bytes "echo?a=1") (by decide)
    (by decide) (by decide) .alloc rfl rfl).mpr ⟨by decide, by decide, nofun, ?_⟩
  intro _ _ m a h
  cases h

/-- A service name of 255 bytes leaves no room for the version. -/
theorem request_line_cut : (replicate 255 (97 : UInt8)).length ≤ 255 ∧
      (∀ b ∈ replicate 255 (97 : UInt8), isSpace b = false) ∧
      ¬ ParsedAs .options (bytes "h") (serviceName (replicate 255 97))
        (serviceArgs (replicate 255 97))
        (parseRequest ({ findService := fun _ => none } : Config Unit) .alloc
          (requestLine .options (ciClientRequest (bytes "h") (replicate 255 97)).1
            (ciClientRequest (bytes "h") (replicate 255 97)).2)) := by
  exact ⟨by decide +kernel, by decide +kernel, fun h => h.accepted (by decide +kernel)⟩

end CIcap
