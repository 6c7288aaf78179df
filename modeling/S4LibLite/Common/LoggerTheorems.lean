import S4LibLite.Common.Logger

/-!
# Histories of the logger

* `loggerName_inj`, no two files share the name of a logger;
* `Inv`, `_file_loggers` and spdlog's registry agree as long as nothing was thrown;
* `initFile_spec`, a file whose logger has to be redirected is where `create` throws;
* `init_matches_iff`, which sequences of `init(cfg)` calls go through.
-/

namespace S4LibLite.Logger

variable {base : TimeBase}

/-! ## Names -/

/-- The time base does not end like a suffix. -/
theorem TimeBase.getLast? (base : TimeBase) :
    ∃ c, base.text.getLast? = some c ∧ c ≠ 114 ∧ c ≠ 101 := by
  rcases base.ends with h | ⟨s, c, h, hc⟩
  · exact ⟨108, by rw [h]; decide, by decide, by decide⟩
  · refine ⟨c, by rw [h, List.getLast?_append]; rfl, ?_, ?_⟩
    · rintro rfl
      exact absurd hc (by decide)
    · rintro rfl
      exact absurd hc (by decide)

/-- The last character of a name tells its suffix. -/
theorem getLast?_loggerName (base : TimeBase) (preamble : Bytes) (pure error : Bool) :
    ((loggerName preamble base pure error).getLast? = some 101 ↔ pure = true) ∧
      (pure = false →
        ((loggerName preamble base pure error).getLast? = some 114 ↔ error = true)) := by
  obtain ⟨c, hlast, hr, he⟩ := base.getLast?
  have hstem : ∀ t : Bytes, (preamble ++ base.text ++ t).getLast?
      = t.getLast?.or (some c) := by
    intro t
    rw [List.getLast?_append, List.getLast?_append, hlast]
    rfl
  unfold loggerName
  rw [List.getLast?_append, hstem]
  -- "_pure" ends in e, "_err" in r, and no time base in either
  have hpure : (lit "_pure").getLast? = some 101 := by decide
  have herror : (lit "_err").getLast? = some 114 := by decide
  cases pure with
  | true =>
    rw [if_pos rfl, hpure, Option.some_or]
    exact ⟨⟨fun _ => rfl, fun _ => rfl⟩, fun h => absurd h (by decide)⟩
  | false =>
    rw [if_neg Bool.false_ne_true, List.getLast?_nil, Option.none_or]
    cases error with
    | true =>
      rw [if_pos rfl, herror, Option.some_or]
      exact ⟨⟨fun h => absurd h (by decide), fun h => absurd h (by decide)⟩,
        fun _ => ⟨fun _ => rfl, fun _ => rfl⟩⟩
    | false =>
      rw [if_neg Bool.false_ne_true, List.getLast?_nil, Option.none_or]
      exact ⟨⟨fun h => absurd (Option.some.inj h) he, fun h => absurd h (by decide)⟩,
        fun _ => ⟨fun h => absurd (Option.some.inj h) hr, fun h => absurd h (by decide)⟩⟩

/-- **Names of loggers** say which file they are for. -/
theorem loggerName_inj {p q : Bytes} {pure error pure' error' : Bool}
    (h : loggerName p base pure error = loggerName q base pure' error') :
    p = q ∧ pure = pure' ∧ error = error' := by
  have hp := getLast?_loggerName base p pure error
  have hq := getLast?_loggerName base q pure' error'
  rw [h] at hp
  have hpure : pure = pure' := by
    rw [Bool.eq_iff_iff, ← hp.1, hq.1]
  subst hpure
  unfold loggerName at h
  have hstem := List.append_cancel_right h
  have herror : error = error' := by
    have hp' := (getLast?_loggerName base p false error).2 rfl
    have hq' := (getLast?_loggerName base q false error').2 rfl
    unfold loggerName at hp' hq'
    rw [hstem] at hp'
    rw [Bool.eq_iff_iff, ← hp', hq']
  subst herror
  exact ⟨List.append_cancel_right (List.append_cancel_right hstem), rfl, rfl⟩

/-- The names the logger does not make itself. -/
theorem loggerName_ne (preamble : Bytes) (pure error : Bool) :
    loggerName preamble base pure error ≠ [] ∧
      loggerName preamble base pure error ≠ lit "console" := by
  obtain ⟨c, hlast, -, -⟩ := base.getLast?
  constructor
  · intro h
    unfold loggerName at h
    simp only [List.append_eq_nil_iff] at h
    rw [h.1.1.2] at hlast
    exact absurd hlast (by simp)
  · intro h
    have hpure := (getLast?_loggerName base preamble pure error).1
    rw [h] at hpure
    have hsuffix : lit "_pure" <:+ lit "console" := by
      rw [← h]
      unfold loggerName
      rw [if_pos (hpure.mp (by decide))]
      exact List.suffix_append _ _
    exact absurd hsuffix (by decide)

/-! ## Two records of the same loggers -/

/-- `_file_loggers` and the registry agree: what is in the one is in the other, under a name
of its own, apart from the console and spdlog's default logger. -/
structure Inv (base : TimeBase) (s : S4Logger) : Prop where
  registered : ∀ name p, s.fileLoggers name = some p → s.registry name = some p
  file : ∀ name p, s.fileLoggers name = some p → ∃ filename, p.filename = some filename
  named : ∀ name p, s.fileLoggers name = some p →
    ∃ preamble pure error, name = loggerName preamble base pure error
  known : ∀ name p, s.registry name = some p →
    name = [] ∨ name = lit "console" ∨ s.fileLoggers name = some p
  console : s.registry (lit "console") = s.console

theorem inv_fresh : Inv base .fresh where
  registered _ _ h := absurd h (by simp [S4Logger.fresh])
  file _ _ h := absurd h (by simp [S4Logger.fresh])
  named _ _ h := absurd h (by simp [S4Logger.fresh])
  known name p h := by
    by_cases hname : name = []
    · exact Or.inl hname
    · rw [S4Logger.fresh] at h
      simp only [Function.update_of_ne hname] at h
      exact absurd h (by simp)
  console := by
    show Function.update (fun _ => none) [] (some defaultLogger) (lit "console") = none
    rw [Function.update_of_ne (by decide)]

/-- The two records are changed together. -/
theorem Inv.update {s s' : S4Logger} (h : Inv base s) {preamble : Bytes} {pure error : Bool}
    {o : Option LoggerPtr} (hfile : ∀ p, o = some p → ∃ filename, p.filename = some filename)
    (hreg : s'.registry = Function.update s.registry (loggerName preamble base pure error) o)
    (hloggers : s'.fileLoggers
      = Function.update s.fileLoggers (loggerName preamble base pure error) o)
    (hconsole : s'.console = s.console) : Inv base s' where
  registered name p hp := by
    rw [hloggers] at hp
    rw [hreg]
    by_cases hname : name = loggerName preamble base pure error
    · rw [hname, Function.update_self] at hp ⊢
      exact hp
    · rw [Function.update_of_ne hname] at hp ⊢
      exact h.registered name p hp
  file name p hp := by
    rw [hloggers] at hp
    by_cases hname : name = loggerName preamble base pure error
    · rw [hname, Function.update_self] at hp
      exact hfile p hp
    · rw [Function.update_of_ne hname] at hp
      exact h.file name p hp
  named name p hp := by
    rw [hloggers] at hp
    by_cases hname : name = loggerName preamble base pure error
    · exact ⟨preamble, pure, error, hname⟩
    · rw [Function.update_of_ne hname] at hp
      exact h.named name p hp
  known name p hp := by
    rw [hreg] at hp
    rw [hloggers]
    by_cases hname : name = loggerName preamble base pure error
    · rw [hname, Function.update_self] at hp ⊢
      exact Or.inr (Or.inr hp)
    · rw [Function.update_of_ne hname] at hp ⊢
      exact h.known name p hp
  console := by
    rw [hreg, hconsole, Function.update_of_ne (Ne.symm (loggerName_ne preamble pure error).2)]
    exact h.console

/-- A state in which only other things have changed. -/
theorem Inv.of_eq {s s' : S4Logger} (h : Inv base s) (hreg : s'.registry = s.registry)
    (hloggers : s'.fileLoggers = s.fileLoggers) (hconsole : s'.console = s.console) :
    Inv base s' where
  registered := by
    rw [hreg, hloggers]
    exact h.registered
  file := by
    rw [hloggers]
    exact h.file
  named := by
    rw [hloggers]
    exact h.named
  known := by
    rw [hreg, hloggers]
    exact h.known
  console := by
    rw [hreg, hconsole]
    exact h.console

/-- A file without a logger is not registered either. -/
theorem Inv.registry_eq_none {s : S4Logger} (h : Inv base s) {preamble : Bytes}
    {pure error : Bool} (hnone : s.fileLoggers (loggerName preamble base pure error) = none) :
    s.registry (loggerName preamble base pure error) = none := by
  cases hreg : s.registry (loggerName preamble base pure error) with
  | none => rfl
  | some p =>
    rcases h.known _ p hreg with hname | hname | hsome
    · exact absurd hname (loggerName_ne preamble pure error).1
    · exact absurd hname (loggerName_ne preamble pure error).2
    · rw [hnone] at hsome
      exact absurd hsome (by simp)

/-! ## One file -/

/-- An enabled file that has a logger writing to another path. -/
def Redirected (base : TimeBase) (cfg : Cfg) (loggers : Bytes → Option LoggerPtr)
    (enable pure error : Bool) : Prop :=
  enable = true ∧ ∃ p, loggers (loggerName cfg.filePreamble base pure error) = some p ∧
    p.filename ≠ some (filePath cfg.savePath cfg.filePreamble base pure error)

instance (base : TimeBase) (cfg : Cfg) (loggers : Bytes → Option LoggerPtr)
    (enable pure error : Bool) : Decidable (Redirected base cfg loggers enable pure error) :=
  inferInstanceAs (Decidable (enable = true ∧
    ∃ p ∈ loggers (loggerName cfg.filePreamble base pure error),
      p.filename ≠ some (filePath cfg.savePath cfg.filePreamble base pure error)))

/-- A logger as a configuration wants it: there if enabled, and writing to its path. -/
def AsConfigured (base : TimeBase) (cfg : Cfg) (enable pure error : Bool)
    (o : Option LoggerPtr) : Prop :=
  o.isSome = enable ∧
    ∀ p, o = some p → p.filename = some (filePath cfg.savePath cfg.filePreamble base pure error)

theorem asConfigured_none (base : TimeBase) (cfg : Cfg) (pure error : Bool) :
    AsConfigured base cfg false pure error none :=
  ⟨rfl, fun _ hp => absurd hp (by simp)⟩

theorem asConfigured_some {base : TimeBase} {cfg : Cfg} {pure error : Bool} {p : LoggerPtr}
    (hp : p.filename = some (filePath cfg.savePath cfg.filePreamble base pure error)) :
    AsConfigured base cfg true pure error (some p) := by
  refine ⟨rfl, fun q hq => ?_⟩
  rw [← Option.some.inj hq, hp]

/-- What `init_file` leaves alone, and what it has done to its file. -/
structure FileDone (base : TimeBase) (enable pure error : Bool) (s s' : S4Logger) : Prop where
  entry : AsConfigured base s.param enable pure error
    (s'.fileLoggers (loggerName s.param.filePreamble base pure error))
  rest : ∀ name, name ≠ loggerName s.param.filePreamble base pure error →
    s'.fileLoggers name = s.fileLoggers name
  param : s'.param = s.param
  fileFolder : s'.fileFolder = s.fileFolder
  console : s'.console = s.console
  files : (s'.fileAll, s'.fileAllPure) = (s.fileAll, s.fileAllPure)

/-- Patterns and levels are settings of the logger. -/
theorem setUpFile_eq (pure error : Bool) (p : LoggerPtr) (s : S4Logger) :
    ∃ settings, s.setUpFile pure error p = { s with settings := settings } := by
  refine ⟨(s.setUpFile pure error p).settings, ?_⟩
  cases pure with
  | true =>
    cases error with
    | true => rfl
    | false => rfl
  | false =>
    cases error with
    | true => rfl
    | false => rfl

/-- A logger that is made: its name must be free. -/
theorem createFile_spec {s : S4Logger} (h : Inv base s) {pure error : Bool} {path : Bytes}
    (hpath : path = filePath s.param.savePath s.param.filePreamble base pure error)
    (hnone : s.fileLoggers (loggerName s.param.filePreamble base pure error) = none) :
    ∃ s', s.createFile (loggerName s.param.filePreamble base pure error) path pure error = some s' ∧
      Inv base s' ∧ FileDone base true pure error s s' := by
  -- a name that has no logger of the object has none in the registry
  have hfree : ¬ (s.registry (loggerName s.param.filePreamble base pure error)).isSome = true := by
    rw [h.registry_eq_none hnone]
    decide
  unfold S4Logger.createFile S4Logger.create
  rw [if_neg hfree]
  simp only [Option.map_some]
  generalize hmade : LoggerPtr.mk s.created (loggerName s.param.filePreamble base pure error)
    (.rotatingFile path (s.param.maxFileSizeMB * (1024 * 1024)) s.param.maxFiles) = p
  obtain ⟨settings, hset⟩ := setUpFile_eq pure error p
    { s with
      registry := Function.update s.registry (loggerName s.param.filePreamble base pure error)
        (some p)
      created := s.created + 1
      fileLoggers := Function.update s.fileLoggers
        (loggerName s.param.filePreamble base pure error) (some p) }
  have hfilename : p.filename = some path := by
    rw [← hmade]
    rfl
  rw [hset]
  refine ⟨_, rfl, h.update (o := some p) ?_ rfl rfl rfl, ?_⟩
  · intro q hq
    rw [← Option.some.inj hq]
    exact ⟨path, hfilename⟩
  · refine ⟨?_, fun name hname => Function.update_of_ne hname _ _, rfl, rfl, rfl, rfl⟩
    simp only [Function.update_self]
    exact asConfigured_some (hpath ▸ hfilename)

/-- A disabled file: its logger is dropped, if it has one. -/
theorem initFile_disabled_spec {s : S4Logger} (h : Inv base s) (pure error : Bool) :
    ∃ s', s.initFile base s.param.filePreamble false pure error = some s' ∧ Inv base s' ∧
      FileDone base false pure error s s' := by
  unfold S4Logger.initFile
  simp only
  rw [if_pos (by decide)]
  by_cases hsome : (s.fileLoggers (loggerName s.param.filePreamble base pure error)).isSome = true
  · rw [if_pos hsome]
    refine ⟨_, rfl, h.update (o := none) (fun p hp => absurd hp (by simp)) rfl rfl rfl, ?_⟩
    refine ⟨?_, fun name hname => Function.update_of_ne hname _ _, rfl, rfl, rfl, rfl⟩
    simp only [Function.update_self]
    exact asConfigured_none ..
  · rw [if_neg hsome]
    rw [Bool.not_eq_true, Option.isSome_eq_false_iff, Option.isNone_iff_eq_none] at hsome
    refine ⟨s, rfl, h, ?_, fun _ _ => rfl, rfl, rfl, rfl, rfl⟩
    rw [hsome]
    exact asConfigured_none ..

/-- **One file** is as configured after `init_file`, unless its logger has to be redirected:
that logger is still registered when the next one is made. -/
theorem initFile_spec {s : S4Logger} (h : Inv base s) (hfolder : s.fileFolder = s.param.savePath)
    (enable pure error : Bool) :
    (Redirected base s.param s.fileLoggers enable pure error ∧
        s.initFile base s.param.filePreamble enable pure error = none) ∨
      (¬ Redirected base s.param s.fileLoggers enable pure error ∧
        ∃ s', s.initFile base s.param.filePreamble enable pure error = some s' ∧ Inv base s' ∧
          FileDone base enable pure error s s') := by
  cases enable with
  | false =>
    exact Or.inr ⟨fun h => absurd h.1 (by decide), initFile_disabled_spec h pure error⟩
  | true =>
    unfold S4Logger.initFile
    simp only
    rw [hfolder, if_neg (by decide)]
    cases hlogger : s.fileLoggers (loggerName s.param.filePreamble base pure error) with
    | none =>
      right
      refine ⟨fun h => ?_, createFile_spec h rfl hlogger⟩
      obtain ⟨p, hp, -⟩ := h.2
      rw [hlogger] at hp
      exact absurd hp (by simp)
    | some p =>
      have hreg := h.registered _ p hlogger
      simp only [hreg]
      by_cases hpath : p.filename
          = some (filePath s.param.savePath s.param.filePreamble base pure error)
      · -- the file is kept where it is
        right
        rw [if_neg (not_not.mpr hpath)]
        obtain ⟨settings, hset⟩ := setUpFile_eq pure error p s
        rw [hset]
        refine ⟨fun h => ?_, _, rfl, h.of_eq rfl rfl rfl, ?_⟩
        · obtain ⟨q, hq, hne⟩ := h.2
          rw [hlogger] at hq
          exact hne (Option.some.inj hq ▸ hpath)
        · refine ⟨?_, fun _ _ => rfl, rfl, rfl, rfl, rfl⟩
          simp only [hlogger]
          exact asConfigured_some hpath
      · -- the name is still taken when the new logger is made
        left
        rw [if_pos hpath]
        refine ⟨⟨rfl, p, hlogger, hpath⟩, ?_⟩
        unfold S4Logger.createFile S4Logger.create
        simp only [hreg]
        rfl

/-! ## One configuration -/

/-- What the two calls of `init_files_all`, or of `init_files_err`, have done. -/
structure FilesDone (base : TimeBase) (enable enablePure error : Bool) (s s' : S4Logger) :
    Prop where
  entry : AsConfigured base s.param enable false error
    (s'.fileLoggers (loggerName s.param.filePreamble base false error))
  entryPure : AsConfigured base s.param enablePure true error
    (s'.fileLoggers (loggerName s.param.filePreamble base true error))
  rest : ∀ pure, s'.fileLoggers (loggerName s.param.filePreamble base pure (!error))
    = s.fileLoggers (loggerName s.param.filePreamble base pure (!error))
  param : s'.param = s.param
  fileFolder : s'.fileFolder = s.fileFolder
  files : (s'.fileAll, s'.fileAllPure) = (s.fileAll, s.fileAllPure)

/-- The two calls; each reads its flag from the configuration. -/
def initPair (base : TimeBase) (enable enablePure : Cfg → Bool) (error : Bool) (s : S4Logger) :
    Option S4Logger :=
  (s.initFile base s.param.filePreamble (enable s.param) false error).bind fun s =>
    s.initFile base s.param.filePreamble (enablePure s.param) true error

theorem initPair_spec {s : S4Logger} (h : Inv base s) (hfolder : s.fileFolder = s.param.savePath)
    (enable enablePure : Cfg → Bool) (error : Bool) :
    ((Redirected base s.param s.fileLoggers (enable s.param) false error ∨
        Redirected base s.param s.fileLoggers (enablePure s.param) true error) ∧
        initPair base enable enablePure error s = none) ∨
      (¬ Redirected base s.param s.fileLoggers (enable s.param) false error ∧
        ¬ Redirected base s.param s.fileLoggers (enablePure s.param) true error ∧
        ∃ s', initPair base enable enablePure error s = some s' ∧ Inv base s' ∧
          FilesDone base (enable s.param) (enablePure s.param) error s s') := by
  have hne : ∀ {pure pure' error' : Bool}, pure ≠ pure' ∨ error ≠ error' →
      loggerName s.param.filePreamble base pure error
        ≠ loggerName s.param.filePreamble base pure' error' := by
    intro pure pure' error' hor heq
    obtain ⟨-, hpure, herror⟩ := loggerName_inj heq
    exact hor.elim (fun h => h hpure) (fun h => h herror)
  unfold initPair
  rcases initFile_spec h hfolder (enable s.param) false error with
    ⟨hred, hnone⟩ | ⟨hkept, s₁, h₁, hinv₁, hd₁⟩
  · rw [hnone, Option.bind_none]
    exact Or.inl ⟨Or.inl hred, rfl⟩
  rw [h₁, Option.bind_some]
  -- the first file is not the second one
  have hsame : Redirected base s₁.param s₁.fileLoggers (enablePure s₁.param) true error ↔
      Redirected base s.param s.fileLoggers (enablePure s.param) true error := by
    unfold Redirected
    rw [hd₁.param, hd₁.rest _ (hne (Or.inl (by decide)))]
  rcases initFile_spec hinv₁ (by rw [hd₁.fileFolder, hd₁.param, hfolder]) (enablePure s₁.param)
    true error with ⟨hred, hnone⟩ | ⟨hkept', s₂, h₂, hinv₂, hd₂⟩
  · exact Or.inl ⟨Or.inr (hsame.mp hred), hnone⟩
  · right
    refine ⟨hkept, fun hred => hkept' (hsame.mpr hred), s₂, h₂, hinv₂, ?_⟩
    have hentry := hd₂.entry
    have hrest := hd₂.rest
    rw [hd₁.param] at hentry hrest
    refine ⟨?_, hentry, fun pure => ?_, hd₂.param.trans hd₁.param,
      hd₂.fileFolder.trans hd₁.fileFolder, hd₂.files.trans hd₁.files⟩
    · rw [hrest _ (hne (Or.inl (by decide)))]
      exact hd₁.entry
    · have hother : error ≠ !error := by cases error <;> decide
      rw [hrest _ (Ne.symm (hne (Or.inr hother))), hd₁.rest _ (Ne.symm (hne (Or.inr hother)))]

/-- `init_files_all` and `init_files_err` are such pairs, and keep their loggers. -/
theorem initFilesAll_eq (s : S4Logger) : s.initFilesAll base
    = (initPair base (·.enableFileAll) (·.enableFileAllPure) false s).map fun s =>
      { s with
        fileAll := s.fileLoggers (loggerName s.param.filePreamble base false false)
        fileAllPure := s.fileLoggers (loggerName s.param.filePreamble base true false) } := by
  unfold initPair loggerName S4Logger.initFilesAll
  rw [Option.map_bind]
  simp only [Bool.false_eq_true, if_false, if_true, List.append_nil]
  rfl

theorem initFilesErr_eq (s : S4Logger) : s.initFilesErr base
    = (initPair base (·.enableFileErr) (·.enableFileErrPure) true s).map fun s =>
      { s with
        fileErr := s.fileLoggers (loggerName s.param.filePreamble base false true)
        fileErrPure := s.fileLoggers (loggerName s.param.filePreamble base true true) } := by
  have hboth : lit "_err_pure" = lit "_err" ++ lit "_pure" := by decide
  unfold initPair loggerName S4Logger.initFilesErr
  rw [Option.map_bind, hboth]
  simp only [Bool.false_eq_true, if_false, if_true, List.append_nil, List.append_assoc]
  rfl

/-- No file that is enabled has a logger that writes to another path. -/
structure Keeps (base : TimeBase) (cfg : Cfg) (s : S4Logger) : Prop where
  all : ¬ Redirected base cfg s.fileLoggers cfg.enableFileAll false false
  allPure : ¬ Redirected base cfg s.fileLoggers cfg.enableFileAllPure true false
  err : ¬ Redirected base cfg s.fileLoggers cfg.enableFileErr false true
  errPure : ¬ Redirected base cfg s.fileLoggers cfg.enableFileErrPure true true

instance (base : TimeBase) (cfg : Cfg) (s : S4Logger) : Decidable (Keeps base cfg s) :=
  decidable_of_iff (¬ Redirected base cfg s.fileLoggers cfg.enableFileAll false false ∧
      ¬ Redirected base cfg s.fileLoggers cfg.enableFileAllPure true false ∧
      ¬ Redirected base cfg s.fileLoggers cfg.enableFileErr false true ∧
      ¬ Redirected base cfg s.fileLoggers cfg.enableFileErrPure true true)
    ⟨fun h => ⟨h.1, h.2.1, h.2.2.1, h.2.2.2⟩, fun h => ⟨h.all, h.allPure, h.err, h.errPure⟩⟩

/-- The four loggers are as configured. -/
structure Matches (base : TimeBase) (cfg : Cfg) (s : S4Logger) : Prop where
  all : AsConfigured base cfg cfg.enableFileAll false false s.fileAll
  allPure : AsConfigured base cfg cfg.enableFileAllPure true false s.fileAllPure
  err : AsConfigured base cfg cfg.enableFileErr false true s.fileErr
  errPure : AsConfigured base cfg cfg.enableFileErrPure true true s.fileErrPure

/-- The console's logger is registered as long as it is there. -/
theorem initConsole_spec {s : S4Logger} (h : Inv base s) : ∃ s', s.initConsole = some s' ∧
    Inv base s' ∧ s'.fileLoggers = s.fileLoggers ∧ s'.param = s.param := by
  have hupdate : ∀ {s' : S4Logger} {o : Option LoggerPtr},
      s'.registry = Function.update s.registry (lit "console") o →
      s'.fileLoggers = s.fileLoggers → s'.console = o → Inv base s' := by
    intro s' o hreg hloggers hconsole
    -- no file has the name of the console
    have hother : ∀ {name : Bytes} {p : LoggerPtr}, s.fileLoggers name = some p →
        name ≠ lit "console" := by
      intro name p hp
      obtain ⟨preamble, pure, error, rfl⟩ := h.named name p hp
      exact (loggerName_ne preamble pure error).2
    refine ⟨fun name p hp => ?_, ?_, ?_, fun name p hp => ?_, ?_⟩
    · rw [hloggers] at hp
      rw [hreg, Function.update_of_ne (hother hp)]
      exact h.registered name p hp
    · rw [hloggers]
      exact h.file
    · rw [hloggers]
      exact h.named
    · by_cases hname : name = lit "console"
      · exact Or.inr (Or.inl hname)
      · rw [hreg, Function.update_of_ne hname] at hp
        rw [hloggers]
        exact h.known name p hp
    · rw [hreg, Function.update_self, hconsole]
  unfold S4Logger.initConsole
  by_cases henable : s.param.enableConsole = true
  · rw [if_pos henable]
    cases hconsole : s.console with
    | some p => exact ⟨_, rfl, h.of_eq rfl rfl rfl, rfl, rfl⟩
    | none =>
      have hfree : ¬ (s.registry (lit "console")).isSome = true := by
        rw [h.console, hconsole]
        decide
      simp only [S4Logger.create, if_neg hfree, Option.map_some]
      exact ⟨_, rfl, hupdate rfl rfl rfl, rfl, rfl⟩
  · rw [if_neg henable]
    by_cases hsome : s.console.isSome = true
    · rw [if_pos hsome]
      exact ⟨_, rfl, hupdate rfl rfl rfl, rfl, rfl⟩
    · rw [if_neg hsome]
      exact ⟨s, rfl, h, rfl, rfl⟩

theorem initFileFolder_eq {fs : FolderCalls} (hfs : fs.Creatable) (s : S4Logger) :
    s.initFileFolder fs = some { s with fileFolder := s.param.savePath } := by
  unfold FolderCalls.Creatable at hfs
  unfold S4Logger.initFileFolder
  by_cases hthere : fs.isThere = true
  · rw [if_pos hthere] at hfs
    rcases hfs with hdir | hmade
    · simp [hthere, hdir]
    · simp [hthere, hmade]
  · rw [if_neg hthere] at hfs
    simp [hthere, hfs]

/-- **One call** of `init(cfg)` throws when it has to redirect a file, and configures all
four files otherwise. -/
theorem initCfg_spec {s : S4Logger} (h : Inv base s) (cfg : Cfg) {fs : FolderCalls}
    (hfs : fs.Creatable) :
    (¬ Keeps base cfg s ∧ s.initCfg base cfg fs = none) ∨
      (Keeps base cfg s ∧ ∃ s', s.initCfg base cfg fs = some s' ∧ Inv base s' ∧
        Matches base cfg s') := by
  have hinv : Inv base { s with param := cfg } := h.of_eq rfl rfl rfl
  obtain ⟨s₁, h₁, hinv₁, hloggers₁, hparam₁⟩ := initConsole_spec hinv
  replace hparam₁ : s₁.param = cfg := hparam₁
  replace hloggers₁ : s₁.fileLoggers = s.fileLoggers := hloggers₁
  unfold S4Logger.initCfg S4Logger.init
  rw [h₁, Option.bind_some, initFileFolder_eq hfs, Option.bind_some, initFilesAll_eq]
  have hinv₂ : Inv base { s₁ with fileFolder := s₁.param.savePath } := hinv₁.of_eq rfl rfl rfl
  generalize hs₂ : { s₁ with fileFolder := s₁.param.savePath } = s₂ at hinv₂ ⊢
  have hparam₂ : s₂.param = cfg := by rw [← hs₂]; exact hparam₁
  have hloggers₂ : s₂.fileLoggers = s.fileLoggers := by rw [← hs₂]; exact hloggers₁
  have hfolder₂ : s₂.fileFolder = s₂.param.savePath := by rw [← hs₂]
  rcases initPair_spec hinv₂ hfolder₂ (·.enableFileAll) (·.enableFileAllPure) false with
    ⟨hred, hnone⟩ | ⟨hall, hallPure, s₃, h₃, hinv₃, hd₃⟩
  · rw [hnone]
    rw [hparam₂, hloggers₂] at hred
    exact Or.inl ⟨fun hkeeps => hred.elim hkeeps.all hkeeps.allPure, rfl⟩
  rw [h₃, Option.map_some, Option.bind_some, initFilesErr_eq]
  rw [hparam₂, hloggers₂] at hall hallPure
  have hentry := hd₃.entry
  have hentryPure := hd₃.entryPure
  have hrest := hd₃.rest
  rw [hparam₂] at hentry hentryPure hrest
  rw [hloggers₂] at hrest
  have hparam₃ : s₃.param = cfg := hd₃.param.trans hparam₂
  generalize hs₄ : { s₃ with
    fileAll := s₃.fileLoggers (loggerName s₃.param.filePreamble base false false)
    fileAllPure := s₃.fileLoggers (loggerName s₃.param.filePreamble base true false) } = s₄
  have hinv₄ : Inv base s₄ := hs₄ ▸ hinv₃.of_eq rfl rfl rfl
  have hparam₄ : s₄.param = cfg := by rw [← hs₄]; exact hparam₃
  have hloggers₄ : s₄.fileLoggers = s₃.fileLoggers := by rw [← hs₄]
  have hfolder₄ : s₄.fileFolder = s₄.param.savePath := by
    rw [hparam₄, ← hs₄, ← hparam₂, ← hfolder₂]
    exact hd₃.fileFolder
  -- the error files have not been touched yet
  have hsame : ∀ enable pure, Redirected base s₄.param s₄.fileLoggers enable pure true ↔
      Redirected base cfg s.fileLoggers enable pure true := by
    intro enable pure
    unfold Redirected
    rw [hparam₄, hloggers₄, show true = !false from rfl, hrest]
  rcases initPair_spec hinv₄ hfolder₄ (·.enableFileErr) (·.enableFileErrPure) true with
    ⟨hred, hnone⟩ | ⟨herr, herrPure, s₅, h₅, hinv₅, hd₅⟩
  · rw [hnone]
    rw [hsame, hsame, hparam₄] at hred
    exact Or.inl ⟨fun hkeeps => hred.elim hkeeps.err hkeeps.errPure, rfl⟩
  · right
    rw [hsame, hparam₄] at herr herrPure
    have hfiles : (s₅.fileAll, s₅.fileAllPure)
        = (s₃.fileLoggers (loggerName cfg.filePreamble base false false),
          s₃.fileLoggers (loggerName cfg.filePreamble base true false)) := by
      rw [hd₅.files, ← hs₄, hparam₃]
    have hentry₅ := hd₅.entry
    have hentryPure₅ := hd₅.entryPure
    rw [hparam₄] at hentry₅ hentryPure₅
    rw [h₅, Option.map_some]
    refine ⟨⟨hall, hallPure, herr, herrPure⟩, _, rfl, hinv₅.of_eq rfl rfl rfl, ?_, ?_, ?_, ?_⟩
    · rw [show s₅.fileAll = _ from (Prod.mk.inj hfiles).1]
      exact hentry
    · rw [show s₅.fileAllPure = _ from (Prod.mk.inj hfiles).2]
      exact hentryPure
    · rw [hd₅.param, hparam₄]
      exact hentry₅
    · rw [hd₅.param, hparam₄]
      exact hentryPure₅

/-! ## Histories -/

/-- Every call of a sequence meets the condition in the state it is made in. -/
def RunKeeps (base : TimeBase) : List (Cfg × FolderCalls) → S4Logger → Prop
  | [], _ => True
  | c :: cs, s => Keeps base c.1 s ∧ ∀ s', s.initCfg base c.1 c.2 = some s' → RunKeeps base cs s'

/-- The next state is the one the call leaves. -/
instance RunKeeps.decidable (base : TimeBase) :
    ∀ (calls : List (Cfg × FolderCalls)) (s : S4Logger), Decidable (RunKeeps base calls s)
  | [], _ => isTrue trivial
  | c :: cs, s =>
    match h : s.initCfg base c.1 c.2 with
    | none => decidable_of_iff (Keeps base c.1 s)
      ⟨fun hkeeps => ⟨hkeeps, fun _ hs' => absurd (h.symm.trans hs') (by simp)⟩, And.left⟩
    | some s' =>
      have := RunKeeps.decidable base cs s'
      decidable_of_iff (Keeps base c.1 s ∧ RunKeeps base cs s')
        ⟨fun hrun => ⟨hrun.1, fun _ hs' => Option.some.inj (h.symm.trans hs') ▸ hrun.2⟩,
          fun hrun => ⟨hrun.1, hrun.2 s' h⟩⟩

/-- Every call of a sequence returns, with the four loggers as it configures them. -/
def RunMatches (base : TimeBase) (calls : List (Cfg × FolderCalls)) (s : S4Logger) : Prop :=
  ∀ pre c, pre ++ [c] <+: calls →
    ∃ s', s.initCfgs base (pre ++ [c]) = some s' ∧ Matches base c.1 s'

theorem runMatches_iff {calls : List (Cfg × FolderCalls)} (hfs : ∀ c ∈ calls, c.2.Creatable)
    {s : S4Logger} (h : Inv base s) : RunMatches base calls s ↔ RunKeeps base calls s := by
  induction calls generalizing s with
  | nil =>
    refine ⟨fun _ => trivial, fun _ pre c hpre => ?_⟩
    exact absurd (List.prefix_nil.mp hpre) (List.append_ne_nil_of_right_ne_nil _ (by simp))
  | cons c cs ih =>
    have htail := fun c hc => hfs c (List.mem_cons_of_mem _ hc)
    -- the first call decides about itself, the rest runs from its state
    have hone : ∀ rest, s.initCfgs base (c :: rest)
        = (s.initCfg base c.1 c.2).bind fun s => s.initCfgs base rest := fun _ => rfl
    constructor
    · intro hmatches
      rcases initCfg_spec h c.1 (hfs c List.mem_cons_self) with
        ⟨-, hnone⟩ | ⟨hkeeps, s₁, h₁, hinv, -⟩
      · obtain ⟨s', hs', -⟩ := hmatches [] c (List.prefix_append [c] cs)
        rw [List.nil_append, hone, hnone, Option.bind_none] at hs'
        exact absurd hs' (by simp)
      · refine ⟨hkeeps, fun s₂ h₂ => ?_⟩
        obtain rfl := Option.some.inj (h₁.symm.trans h₂)
        refine (ih htail hinv).mp fun pre c' hpre => ?_
        obtain ⟨s', hs', hm⟩ := hmatches (c :: pre) c' (List.cons_prefix_cons.mpr ⟨rfl, hpre⟩)
        rw [List.cons_append, hone, h₁, Option.bind_some] at hs'
        exact ⟨s', hs', hm⟩
    · intro hkept pre c' hpre
      rcases initCfg_spec h c.1 (hfs c List.mem_cons_self) with
        ⟨hnot, -⟩ | ⟨-, s₁, h₁, hinv, hm⟩
      · exact absurd hkept.1 hnot
      cases pre with
      | nil =>
        obtain ⟨rfl, -⟩ := List.cons_prefix_cons.mp hpre
        exact ⟨s₁, by rw [List.nil_append, hone, h₁]; rfl, hm⟩
      | cons d pre =>
        obtain ⟨rfl, hrest⟩ := List.cons_prefix_cons.mp hpre
        obtain ⟨s', hs', hm'⟩ := (ih htail hinv).mpr (hkept.2 s₁ h₁) pre c' hrest
        exact ⟨s', by rw [List.cons_append, hone, h₁, Option.bind_some, hs'], hm'⟩

/-- **Histories of configurations.** From a constructed logger, every `init(cfg)` call of a
sequence returns and leaves exactly the enabled file loggers, each writing to the path of
its configuration, if and only if no call finds an enabled file with a logger that writes
elsewhere. -/
theorem init_matches_iff (base : TimeBase) {calls : List (Cfg × FolderCalls)}
    (hfs : ∀ c ∈ calls, c.2.Creatable) :
    RunMatches base calls .fresh ↔ RunKeeps base calls .fresh :=
  runMatches_iff hfs inv_fresh

/-- A folder that is there. -/
def FolderCalls.there : FolderCalls := ⟨true, true, true, true⟩

/-- The time base before any instance has been made. -/
def TimeBase.null : TimeBase := ⟨lit "null", Or.inl rfl⟩

/-- The default configuration; the pure files are disabled and another one is enabled; they are
enabled again in another folder, and that one is disabled. -/
def reenabling : List (Cfg × FolderCalls) :=
  [({}, .there),
    ({ enableFileAll := true, enableFileAllPure := false, enableFileErrPure := false }, .there),
    ({ savePath := lit "./logs2", level := .err }, ⟨false, false, false, true⟩)]

theorem init_matches_reenabling : RunMatches .null reenabling .fresh := by
  have hfs : ∀ c ∈ reenabling, c.2.Creatable := by
    simp only [reenabling, List.forall_mem_cons]
    exact ⟨Or.inl rfl, Or.inl rfl, rfl, List.forall_mem_nil _⟩
  exact (init_matches_iff .null hfs).mpr (by decide +kernel)

/-- The default configuration, and then another folder for the same files. -/
theorem init_redirect_throws : ¬ ∀ (base : TimeBase) (calls : List (Cfg × FolderCalls)),
    (∀ c ∈ calls, c.2.Creatable) → RunMatches base calls .fresh := by
  intro hall
  have hfs : ∀ c ∈ [(({} : Cfg), FolderCalls.there), ({ savePath := lit "./logs2" }, .there)],
      c.2.Creatable := by
    simp only [List.forall_mem_cons]
    exact ⟨Or.inl rfl, Or.inl rfl, List.forall_mem_nil _⟩
  obtain ⟨s', hs', -⟩ := hall .null _ hfs [_] _ (List.prefix_refl _)
  have hnone : (S4Logger.fresh.initCfgs .null [(({} : Cfg), FolderCalls.there),
      ({ savePath := lit "./logs2" }, .there)]).isNone = true := by decide
  have hboth : [(({} : Cfg), FolderCalls.there)] ++ [({ savePath := lit "./logs2" }, .there)]
      = [(({} : Cfg), FolderCalls.there), ({ savePath := lit "./logs2" }, .there)] := rfl
  rw [hboth] at hs'
  rw [hs'] at hnone
  exact absurd hnone (by simp)

end S4LibLite.Logger
