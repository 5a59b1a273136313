import CIcap.Lib.CText
import CIcap.Lib.UnixPath

/-! # The files the template loader opens

The model of `templateLoadText`: the languages of the `Accept-Language` header are tried one
after the other, then the default language. For each the loader looks into its cache and, when
the template is not there, opens `TEMPLATE_DIR/service/language/page`. Nothing in a language is
refused, so `templateLoadText_below_iff` has a condition on the languages and the page name:
they may not climb out of the directory of the service, or must come back into it.
-/

namespace CIcap

open CText UnixPath List

/-- The configuration of the loader. -/
structure TemplateConfig where
  templateDir : List UInt8
  templateDefLang : List UInt8 := bytes "en"

/-- What the cache and the file system answer to the `n`-th attempt of a call: whether the
template is in the cache, and whether its file could be opened and read. Both change under the
loader, since other threads use them. -/
structure TemplateEnv where
  templateFind : Nat → Bool
  readFile : Nat → Bool

/-- `CI_MAX_PATH` -/
def ciMaxPath : Nat := 4096

/-- `makeTemplatePathFileName`, with the cut that `snprintf` makes at the end of the buffer. -/
def makeTemplatePathFileName (cfg : TemplateConfig) (serviceName pageName lang : List UInt8) :
    List UInt8 :=
  (cfg.templateDir ++ 47 :: (serviceName ++ 47 :: (lang ++ 47 :: pageName))).take (ciMaxPath - 1)

/-- `templateTryLoadText`: the paths it opens, and whether it returns a template. -/
def templateTryLoadText (cfg : TemplateConfig) (env : TemplateEnv)
    (serviceName pageName lang : List UInt8) (n : Nat) : List (List UInt8) × Bool :=
  if env.templateFind n then ([], true)
  else ([makeTemplatePathFileName cfg serviceName pageName lang], env.readFile n)

/-- The next language of the header and the text behind it: blanks are skipped, at most 31
characters are copied up to a `,`, a `;` or a blank, and the rest of the entry is ignored. -/
def nextLanguage (s : List UInt8) : List UInt8 × List UInt8 :=
  let s := s.dropWhile isSpace
  let preferred := (s.takeWhile (fun b => b ≠ 44 && b ≠ 59 && !isSpace b)).take 31
  let s := (s.drop preferred.length).dropWhile (· ≠ 44)
  (preferred, s.tail)

theorem nextLanguage_shorter {s : List UInt8} (h : s ≠ []) :
    (nextLanguage s).2.length < s.length := by
  have hpos : 0 < s.length := length_pos_iff.mpr h
  have h1 : (s.dropWhile isSpace).length ≤ s.length := (dropWhile_sublist _).length_le
  have h2 : ∀ t : List UInt8, (t.dropWhile (· ≠ 44)).length ≤ t.length :=
    fun t => (dropWhile_sublist _).length_le
  have h3 := h2 ((s.dropWhile isSpace).drop (nextLanguage s).1.length)
  rw [length_drop] at h3
  have h4 : (nextLanguage s).2.length =
      (((s.dropWhile isSpace).drop (nextLanguage s).1.length).dropWhile (· ≠ 44)).length - 1 :=
    length_tail
  omega

/-- The languages of an `Accept-Language` header in the order in which they are tried. -/
def acceptLanguages (s : List UInt8) : List (List UInt8) :=
  if h : s = [] then []
  else
    have := nextLanguage_shorter h
    (nextLanguage s).1 :: acceptLanguages (nextLanguage s).2
  termination_by s.length

/-- The attempts, from the `n`-th on: the languages that are left and then the default one. -/
def templateTryLanguages (cfg : TemplateConfig) (env : TemplateEnv)
    (serviceName pageName : List UInt8) :
    Nat → List (List UInt8) → List (List UInt8) × Option (List UInt8)
  | n, [] =>
    let r := templateTryLoadText cfg env serviceName pageName cfg.templateDefLang n
    (r.1, if r.2 then some cfg.templateDefLang else none)
  | n, preferred :: rest =>
    let r := templateTryLoadText cfg env serviceName pageName preferred n
    if r.2 then (r.1, some preferred)
    else
      let r' := templateTryLanguages cfg env serviceName pageName (n + 1) rest
      (r.1 ++ r'.1, r'.2)

/-- `templateLoadText`: the paths it opens and the language of the template it returns. -/
def templateLoadText (cfg : TemplateConfig) (env : TemplateEnv)
    (acceptLangHeader : Option (List UInt8)) (serviceName pageName : List UInt8) :
    List (List UInt8) × Option (List UInt8) :=
  templateTryLanguages cfg env serviceName pageName 0
    ((acceptLangHeader.map acceptLanguages).getD [])

/-! ## Which paths are opened -/

/-- A call opens paths of the languages of the header and of the default language only. -/
theorem mem_templateTryLanguages (cfg : TemplateConfig) (env : TemplateEnv)
    (serviceName pageName : List UInt8) (n : Nat) (langs : List (List UInt8)) {path : List UInt8}
    (h : path ∈ (templateTryLanguages cfg env serviceName pageName n langs).1) :
    ∃ lang ∈ langs ++ [cfg.templateDefLang],
      path = makeTemplatePathFileName cfg serviceName pageName lang := by
  have htry : ∀ lang n, path ∈ (templateTryLoadText cfg env serviceName pageName lang n).1 →
      path = makeTemplatePathFileName cfg serviceName pageName lang := by
    intro lang n h
    unfold templateTryLoadText at h
    split at h
    · cases h
    · exact mem_singleton.mp h
  induction langs generalizing n with
  | nil => exact ⟨cfg.templateDefLang, by simp, htry _ _ h⟩
  | cons preferred rest ih =>
    rw [templateTryLanguages] at h
    split at h
    · exact ⟨preferred, by simp, htry _ _ h⟩
    · rcases mem_append.mp h with h | h
      · exact ⟨preferred, by simp, htry _ _ h⟩
      · obtain ⟨lang, hmem, heq⟩ := ih _ h
        exact ⟨lang, by simpa using Or.inr (mem_append.mp hmem), heq⟩

def TemplateEnv.empty : TemplateEnv := ⟨fun _ => false, fun _ => false⟩

/-- With nothing in the cache and no file, every language is tried. -/
theorem templateTryLanguages_empty (cfg : TemplateConfig) (serviceName pageName : List UInt8)
    (n : Nat) (langs : List (List UInt8)) :
    (templateTryLanguages cfg .empty serviceName pageName n langs).1 =
      (langs ++ [cfg.templateDefLang]).map (makeTemplatePathFileName cfg serviceName pageName) := by
  induction langs generalizing n with
  | nil => rfl
  | cons preferred rest ih =>
    have := ih (n + 1)
    simp only [templateTryLanguages]
    rw [this]
    rfl

/-! ## Where the paths lead -/

variable (cfg : TemplateConfig) (cwd : List (List UInt8))

/-- The path leads to something inside the directory. -/
def LiesUnder (dir path : List UInt8) : Prop :=
  ∃ more, more ≠ [] ∧ resolve 47 46 cwd path = resolve 47 46 cwd dir ++ more

/-- `TEMPLATE_DIR/service_name` -/
def serviceDir (serviceName : List UInt8) : List UInt8 := cfg.templateDir ++ 47 :: serviceName

/-- What stands behind `TEMPLATE_DIR/service_name/` in the buffer. -/
def insidePart (serviceName pageName lang : List UInt8) : List UInt8 :=
  (lang ++ 47 :: pageName).take (ciMaxPath - 1 - ((serviceDir cfg serviceName).length + 1))

/-- The language and the page name stay inside the directory of the service: after going up
some levels they come back down by the same names and go on. A directory too long for the
buffer must lie inside itself when it is cut. -/
def StaysInside (serviceName pageName lang : List UInt8) : Prop :=
  if (serviceDir cfg serviceName).length + 1 ≤ ciMaxPath - 1 then
    let dir := resolve 47 46 cwd (serviceDir cfg serviceName)
    let c := climb 46 (components 47 (insidePart cfg serviceName pageName lang))
    ∃ more, more ≠ [] ∧ c.2 = dir.drop (dir.length - c.1) ++ more
  else
    LiesUnder cwd (serviceDir cfg serviceName)
      ((serviceDir cfg serviceName ++ [47]).take (ciMaxPath - 1))

variable (serviceName pageName lang : List UInt8)

theorem makeTemplatePathFileName_eq :
    makeTemplatePathFileName cfg serviceName pageName lang =
      (serviceDir cfg serviceName ++ [47]).take (ciMaxPath - 1) ++
        insidePart cfg serviceName pageName lang := by
  have hsplit : cfg.templateDir ++ 47 :: (serviceName ++ 47 :: (lang ++ 47 :: pageName)) =
      (serviceDir cfg serviceName ++ [47]) ++ (lang ++ 47 :: pageName) := by
    simp [serviceDir]
  rw [makeTemplatePathFileName, hsplit, take_append, length_append]
  rfl

/-- A path behind a directory leads where a walk from the directory leads. -/
theorem resolve_append_slash (dir tail : List UInt8) (hdir : dir ≠ []) :
    resolve 47 46 cwd (dir ++ 47 :: tail) =
      walk 46 (resolve 47 46 cwd dir) (components 47 tail) := by
  have hhead : (dir ++ 47 :: tail).head? = dir.head? := by
    cases dir with
    | nil => exact absurd rfl hdir
    | cons b dir => rfl
  rw [resolve, resolve, hhead, components_append_slash, walk, walk, walk, foldl_append]

/-- One path lies under the directory of the service exactly when its language and page stay
inside. -/
theorem liesUnder_iff :
    LiesUnder cwd (serviceDir cfg serviceName)
        (makeTemplatePathFileName cfg serviceName pageName lang) ↔
      StaysInside cfg cwd serviceName pageName lang := by
  unfold StaysInside
  rw [makeTemplatePathFileName_eq]
  by_cases hfit : (serviceDir cfg serviceName).length + 1 ≤ ciMaxPath - 1
  · rw [if_pos hfit, take_of_length_le (by simpa using hfit), append_assoc]
    have hres := resolve_append_slash cwd (serviceDir cfg serviceName)
      (insidePart cfg serviceName pageName lang) (by simp [serviceDir])
    rw [singleton_append, LiesUnder, hres]
    simp only [walk_below_iff]
  · -- nothing of the language fits behind the directory
    have hnil : insidePart cfg serviceName pageName lang = [] := by
      rw [insidePart, Nat.sub_eq_zero_of_le (by omega), take_zero]
    rw [if_neg hfit, hnil, append_nil]

/-- **Template files.** All paths the loader can open for a header value, a service and a page
lie under the directory of the service exactly when every language of the header and the
default language stay inside it together with the page name. -/
theorem templateLoadText_below_iff (acceptLangHeader : Option (List UInt8))
    (serviceName pageName : List UInt8) :
    (∀ env, ∀ path ∈ (templateLoadText cfg env acceptLangHeader serviceName pageName).1,
        LiesUnder cwd (serviceDir cfg serviceName) path) ↔
      ∀ lang ∈ (acceptLangHeader.map acceptLanguages).getD [] ++ [cfg.templateDefLang],
        StaysInside cfg cwd serviceName pageName lang := by
  constructor
  · intro h lang hlang
    rw [← liesUnder_iff]
    apply h .empty
    rw [templateLoadText, templateTryLanguages_empty]
    exact mem_map_of_mem hlang
  · intro h env path hpath
    obtain ⟨lang, hlang, rfl⟩ := mem_templateTryLanguages cfg env serviceName pageName _ _ hpath
    rw [liesUnder_iff]
    exact h lang hlang

/-- The language `..` leads out of the directory of the service. -/
theorem templateLoadText_dotdot : bytes "/t/s/../p" ∈
      (templateLoadText ⟨bytes "/t", bytes "en"⟩ .empty (some (bytes "..")) (bytes "s")
        (bytes "p")).1 ∧
    ¬ LiesUnder [] (serviceDir ⟨bytes "/t", bytes "en"⟩ (bytes "s")) (bytes "/t/s/../p") := by
  constructor
  · have hlangs : acceptLanguages (bytes "..") = [bytes ".."] := by
      rw [acceptLanguages, acceptLanguages]
      rfl
    rw [templateLoadText, Option.map_some, hlangs]
    decide
  · rintro ⟨more, -, h⟩
    have h3 : bytes "p" = bytes "s" := (cons.inj (cons.inj h).2).1
    exact absurd h3 (by decide)

end CIcap
