import Brainfuck.CommandLine.Report
import Brainfuck.Proofs.Compilation
import Brainfuck.Proofs.FileEntries

namespace Brainfuck.CommandLine

theorem bind_eq_error {ε α β : Type} {x : Except ε α} {f : α → Except ε β} {e : ε} :
    x >>= f = .error e ↔ x = .error e ∨ ∃ a, x = .ok a ∧ f a = .error e := by
  cases x with
  | error e' => simp [bind, Except.bind]
  | ok a => simp [bind, Except.bind]

theorem mapError_eq_error {ε ε' α : Type} {f : ε → ε'} {x : Except ε α} {e : ε'} :
    x.mapError f = .error e ↔ ∃ e', x = .error e' ∧ f e' = e := by
  cases x <;> simp [Except.mapError]

namespace Request

section

variable (r : Request) (files : Workspace) (stdin : List UInt8)

def Refuses (e : CompileError) (source : List UInt8) : Prop :=
  if r.run then optimizedTree r.settings .standard source = .error e
  else compile r.settings .standard source = .error e

def Fails : Failure → Prop
  | .unopened e =>
    files.lookup r.inFile = .error e ∨
      r.run = false ∧ ∃ source text, files.lookup r.inFile = .ok (.file source) ∧
        compile r.settings .standard source = .ok text ∧ files.place r.outFile = .error e
  | .uncompiled e => ∃ source, files.lookup r.inFile = .ok (.file source) ∧ r.Refuses e source
  | .unread e => (∃ entries, files.lookup r.inFile = .ok (.folder entries)) ∧ e = .isAFolder
  | .faulted f =>
    r.run = true ∧ ∃ source tree m, files.lookup r.inFile = .ok (.file source) ∧
      optimizedTree r.settings .standard source = .ok tree ∧
      interpret r.settings.cellSize tree stdin none = .failed f m

def Unending : Prop :=
  r.run = true ∧ ∃ source tree, files.lookup r.inFile = .ok (.file source) ∧
    optimizedTree r.settings .standard source = .ok tree ∧
    interpret r.settings.cellSize tree stdin none = .givenUp

structure Runs (report : Report) : Prop where
  output : ∃ source tree m, files.lookup r.inFile = .ok (.file source) ∧
    optimizedTree r.settings .standard source = .ok tree ∧
    interpret r.settings.cellSize tree stdin none = .finished m ∧ report.stdout = m.output.toList
  files : report.files = files

structure Compiles (report : Report) : Prop where
  text : ∃ source text location, files.lookup r.inFile = .ok (.file source) ∧
    compile r.settings .standard source = .ok text ∧ files.place r.outFile = .ok location ∧
    report.files.lookup r.outFile = .ok (.file text.toUTF8.toList) ∧
    report.files.tree.entryAt =
      Function.update files.tree.entryAt location (some (.file text.toUTF8.toList))
  home : report.files.home = files.home
  stdout : report.stdout = []

end

variable {r : Request} {files : Workspace} {stdin source : List UInt8}

theorem readSource_eq_ok {path : String} :
    readSource files path = .ok source ↔ files.lookup path = .ok (.file source) := by
  rw [readSource]
  split <;> simp_all

theorem readSource_eq_error {path : String} {f : Failure} : readSource files path = .error f ↔
    (∃ e, files.lookup path = .error e ∧ .unopened e = f) ∨
      ∃ entries, files.lookup path = .ok (.folder entries) ∧ .unread .isAFolder = f := by
  rw [readSource]
  rcases files.lookup path with e | _ | _ <;> simp

theorem compiled_eq_ok {bytes : List UInt8} : r.compiled source = .ok bytes ↔
    ∃ text, compile r.settings .standard source = .ok text ∧ text.toUTF8.toList = bytes := by
  rw [compiled]
  cases compile r.settings .standard source <;> simp

theorem compiled_eq_error {f : Failure} : r.compiled source = .error f ↔
    ∃ e, compile r.settings .standard source = .error e ∧ .uncompiled e = f := by
  rw [compiled]
  cases compile r.settings .standard source <;> simp

theorem ran_eq_ok {output : Option (List UInt8)} : r.ran source stdin = .ok output ↔
    ∃ tree, optimizedTree r.settings .standard source = .ok tree ∧
      ((∃ m, interpret r.settings.cellSize tree stdin none = .finished m ∧
          some m.output.toList = output) ∨
        interpret r.settings.cellSize tree stdin none = .givenUp ∧ none = output) := by
  rw [ran, bind_eq_ok]
  refine exists_congr fun tree => and_congr Endless.mapError_eq_ok ?_
  cases interpret r.settings.cellSize tree stdin none with
  | finished m => simp [pure_eq_ok]
  | failed fault m => simp [throw, throwThe, MonadExceptOf.throw]
  | givenUp => simp [pure_eq_ok]

theorem ran_eq_error {f : Failure} : r.ran source stdin = .error f ↔
    (∃ e, optimizedTree r.settings .standard source = .error e ∧ .uncompiled e = f) ∨
      ∃ tree, optimizedTree r.settings .standard source = .ok tree ∧
        ∃ fault m, interpret r.settings.cellSize tree stdin none = .failed fault m ∧
          .faulted fault = f := by
  rw [ran, bind_eq_error, mapError_eq_error]
  refine or_congr Iff.rfl (exists_congr fun tree => and_congr Endless.mapError_eq_ok ?_)
  cases interpret r.settings.cellSize tree stdin none with
  | finished m => simp [pure, Except.pure]
  | failed fault m => simp [throw, throwThe, MonadExceptOf.throw]
  | givenUp => simp [pure, Except.pure]

theorem perform_eq_error {f : Failure} : r.perform files stdin = .error f ↔
    r.Fails files stdin f := by
  rw [perform, bind_eq_error, readSource_eq_error]
  simp only [readSource_eq_ok]
  by_cases hrun : r.run
  · simp only [hrun, if_true, bind_eq_error, ran_eq_error]
    cases f with
    | unread e => simp [Fails, pure, Except.pure, eq_comm]
    | _ => simp [Fails, Refuses, hrun, pure, Except.pure]
  · simp only [hrun, Bool.false_eq_true, if_false, bind_eq_error, compiled_eq_error, compiled_eq_ok,
      mapError_eq_error, Workspace.write]
    cases f with
    | unread e => simp [Fails, pure, Except.pure, eq_comm]
    | _ => simp [Fails, Refuses, hrun, pure, Except.pure]

theorem perform_eq_none : r.perform files stdin = .ok none ↔ r.Unending files stdin := by
  rw [perform, bind_eq_ok]
  simp only [readSource_eq_ok]
  by_cases hrun : r.run
  · simp only [hrun, if_true, bind_eq_ok, ran_eq_ok, pure_eq_ok]
    simp [Unending, hrun]
  · simp only [hrun, Bool.false_eq_true, if_false, bind_eq_ok, pure_eq_ok]
    simp [Unending, hrun]

theorem perform_eq_some {report : Report} (h : r.perform files stdin = .ok (some report)) :
    report.exitCode = 0 ∧
      if r.run then r.Runs files stdin report else r.Compiles files report := by
  obtain ⟨source, hsource, h⟩ := bind_eq_ok.mp h
  rw [readSource_eq_ok] at hsource
  by_cases hrun : r.run
  · rw [if_pos hrun] at h ⊢
    obtain ⟨output, houtput, h⟩ := bind_eq_ok.mp h
    obtain ⟨tree, htree, ⟨m, hm, rfl⟩ | ⟨-, rfl⟩⟩ := ran_eq_ok.mp houtput
    · cases h
      exact ⟨rfl, ⟨source, tree, m, hsource, htree, hm, rfl⟩, rfl⟩
    · cases h
  · rw [if_neg hrun] at h ⊢
    obtain ⟨bytes, hbytes, h⟩ := bind_eq_ok.mp h
    obtain ⟨text, htext, rfl⟩ := compiled_eq_ok.mp hbytes
    obtain ⟨after, hafter, h⟩ := bind_eq_ok.mp h
    rw [Endless.mapError_eq_ok] at hafter
    have hlookup := Workspace.lookup_write hafter
    obtain ⟨location, hplace, hwrite⟩ := bind_eq_ok.mp hafter
    cases hwrite
    cases h
    have hentry := Workspace.write_entryAt text.toUTF8.toList hplace
    exact ⟨rfl, ⟨source, text, location, hsource, htext, hplace, hlookup, hentry⟩, rfl, rfl⟩

theorem Refuses.long {e : PassError} (h : r.Refuses (.optimize e) source) :
    2 ^ 31 ≤ source.length := by
  by_contra hlen
  have htree : optimizedTree r.settings .standard source ≠ .error (.optimize e) := by
    rw [optimizedTree, Ne, bind_eq_error]
    rintro (hparse | ⟨t, ht, hopt⟩)
    · obtain ⟨e', -, he⟩ := mapError_eq_error.mp hparse
      cases he
    · obtain ⟨extent, -, hw⟩ := exists_within (by omega) (Endless.mapError_eq_ok.mp ht)
      obtain ⟨t', ht', -⟩ := optimize_within (s := r.settings.cellSize) standard_subset hw
      rw [ht'] at hopt
      cases hopt
  rw [Refuses] at h
  by_cases hrun : r.run
  · rw [if_pos hrun] at h
    exact htree h
  · rw [if_neg hrun, compile, bind_eq_error] at h
    rcases h with h | ⟨t, -, h⟩
    · exact htree h
    · obtain ⟨e', -, he⟩ := mapError_eq_error.mp h
      cases he

end Request

namespace Failure

variable {f : Failure}

theorem exitCode_ne_zero : f.exitCode ≠ 0 := by
  unfold exitCode
  split <;> simp

theorem exitCode_eq_one : f.exitCode = 1 ↔ ∃ e, f = unopened e := by
  unfold exitCode
  split <;> simp

theorem exitCode_eq_two :
    f.exitCode = 2 ↔ ∃ e, f = uncompiled e ∧ ∀ o, e ≠ .optimize (.overflow o) := by
  unfold exitCode
  split <;> simp_all

theorem exitCode_eq_127 : f.exitCode = 127 ↔ (∃ e, f = unread e) ∨ ∃ fault, f = faulted fault := by
  unfold exitCode
  split <;> simp

theorem exitCode_cases : f.exitCode = 1 ∨ f.exitCode = 2 ∨ f.exitCode = 127 ∨
    f.exitCode = 101 ∧ ∃ o, f = uncompiled (.optimize (.overflow o)) := by
  unfold exitCode
  split <;> simp

end Failure

section Call

variable {arguments : List String} {files : Workspace} {stdin : List UInt8} {report : Report}

theorem call_eq_none : call arguments files stdin = none ↔
    ∃ r, Request.ofArguments arguments = .ok r ∧ r.Unending files stdin := by
  rw [call]
  cases Request.ofArguments arguments with
  | error i => simp
  | ok r =>
    simp only [Except.ok.injEq, exists_eq_left', ← Request.perform_eq_none]
    cases r.perform files stdin <;> simp

theorem call_cases (h : call arguments files stdin = some report) :
    (∃ i, Request.ofArguments arguments = .error i ∧ report = i.report files) ∨
      ∃ r, Request.ofArguments arguments = .ok r ∧
        ((∃ f, r.Fails files stdin f ∧
            report = { exitCode := f.exitCode, stderr := some f.message, files }) ∨
          r.perform files stdin = .ok (some report)) := by
  rw [call] at h
  cases hr : Request.ofArguments arguments with
  | error i =>
    rw [hr] at h
    exact .inl ⟨i, rfl, (Option.some.inj h).symm⟩
  | ok r =>
    simp only [hr] at h
    refine .inr ⟨r, rfl, ?_⟩
    cases hp : r.perform files stdin with
    | error f =>
      rw [hp] at h
      exact .inl ⟨f, Request.perform_eq_error.mp hp, (Option.some.inj h).symm⟩
    | ok result =>
      rw [hp] at h
      exact .inr (by rw [← h])

theorem call_of_fails {r : Request} {f : Failure} (hr : Request.ofArguments arguments = .ok r)
    (hf : r.Fails files stdin f) : call arguments files stdin =
      some { exitCode := f.exitCode, stderr := some f.message, files } := by
  rw [call, hr]
  simp only [Request.perform_eq_error.mpr hf]

theorem exitCode_eq_iff (h : call arguments files stdin = some report) {c : Nat} (hc : c ≠ 0) :
    report.exitCode = c ↔
      (c = 2 ∧ ∃ e, Request.ofArguments arguments = .error (.usage e)) ∨
        ∃ r f, Request.ofArguments arguments = .ok r ∧ r.Fails files stdin f ∧ f.exitCode = c := by
  constructor
  · intro hcode
    rcases call_cases h with ⟨i, hi, rfl⟩ | ⟨r, hr, ⟨f, hf, rfl⟩ | hp⟩
    · cases i with
      | usage e => exact .inl ⟨hcode.symm, e, hi⟩
      | help => exact absurd hcode.symm hc
      | version => exact absurd hcode.symm hc
    · exact .inr ⟨r, f, hr, hf, hcode⟩
    · have hzero := (Request.perform_eq_some hp).1
      omega
  · rintro (⟨rfl, e, he⟩ | ⟨r, f, hr, hf, rfl⟩)
    · rw [call, he] at h
      cases h
      rfl
    · rw [call_of_fails hr hf] at h
      cases h
      rfl

theorem unchanged_of_exitCode_ne (h : call arguments files stdin = some report)
    (hcode : report.exitCode ≠ 0) : report.files = files ∧ report.stdout = [] := by
  rcases call_cases h with ⟨i, hi, rfl⟩ | ⟨r, hr, ⟨f, hf, rfl⟩ | hp⟩
  · cases i with
    | usage e => exact ⟨rfl, rfl⟩
    | help => exact absurd rfl hcode
    | version => exact absurd rfl hcode
  · exact ⟨rfl, rfl⟩
  · exact absurd (Request.perform_eq_some hp).1 hcode

theorem written_of_exitCode_eq (h : call arguments files stdin = some report) {r : Request}
    (hr : Request.ofArguments arguments = .ok r) (hcode : report.exitCode = 0) :
    if r.run then r.Runs files stdin report else r.Compiles files report := by
  rcases call_cases h with ⟨i, hi, -⟩ | ⟨r', hr', ⟨f, hf, rfl⟩ | hp⟩
  · rw [hr] at hi
    cases hi
  · exact absurd hcode Failure.exitCode_ne_zero
  · rw [hr] at hr'
    cases hr'
    exact (Request.perform_eq_some hp).2

theorem unchanged_of_interruption (h : call arguments files stdin = some report) {i : Interruption}
    (hi : Request.ofArguments arguments = .error i) : report.files = files := by
  rw [call, hi] at h
  cases h
  cases i <;> rfl

theorem exitCode_eq_one_iff (h : call arguments files stdin = some report) :
    report.exitCode = 1 ↔
      ∃ r e, Request.ofArguments arguments = .ok r ∧ r.Fails files stdin (.unopened e) := by
  rw [exitCode_eq_iff h (by decide)]
  constructor
  · rintro (⟨hcode, -⟩ | ⟨r, f, hr, hf, hcode⟩)
    · cases hcode
    · obtain ⟨e, rfl⟩ := Failure.exitCode_eq_one.mp hcode
      exact ⟨r, e, hr, hf⟩
  · rintro ⟨r, e, hr, hf⟩
    exact .inr ⟨r, _, hr, hf, rfl⟩

theorem exitCode_eq_two_iff (h : call arguments files stdin = some report) :
    report.exitCode = 2 ↔
      (∃ e, Request.ofArguments arguments = .error (.usage e)) ∨
        ∃ r e, Request.ofArguments arguments = .ok r ∧ r.Fails files stdin (.uncompiled e) ∧
          ∀ o, e ≠ .optimize (.overflow o) := by
  rw [exitCode_eq_iff h (by decide)]
  constructor
  · rintro (⟨-, he⟩ | ⟨r, f, hr, hf, hcode⟩)
    · exact .inl he
    · obtain ⟨e, rfl, he⟩ := Failure.exitCode_eq_two.mp hcode
      exact .inr ⟨r, e, hr, hf, he⟩
  · rintro (he | ⟨r, e, hr, hf, he⟩)
    · exact .inl ⟨rfl, he⟩
    · exact .inr ⟨r, _, hr, hf, Failure.exitCode_eq_two.mpr ⟨e, rfl, he⟩⟩

theorem exitCode_eq_127_iff (h : call arguments files stdin = some report) :
    report.exitCode = 127 ↔
      ∃ r, Request.ofArguments arguments = .ok r ∧
        ((∃ e, r.Fails files stdin (.unread e)) ∨ ∃ f, r.Fails files stdin (.faulted f)) := by
  rw [exitCode_eq_iff h (by decide)]
  constructor
  · rintro (⟨hcode, -⟩ | ⟨r, f, hr, hf, hcode⟩)
    · cases hcode
    · rcases Failure.exitCode_eq_127.mp hcode with ⟨e, rfl⟩ | ⟨fault, rfl⟩
      · exact ⟨r, hr, .inl ⟨e, hf⟩⟩
      · exact ⟨r, hr, .inr ⟨fault, hf⟩⟩
  · rintro ⟨r, hr, ⟨e, hf⟩ | ⟨fault, hf⟩⟩
    · exact .inr ⟨r, _, hr, hf, rfl⟩
    · exact .inr ⟨r, _, hr, hf, rfl⟩

theorem exitCode_otherwise (h : call arguments files stdin = some report)
    (hcode : report.exitCode ∉ [0, 1, 2, 127]) : report.exitCode = 101 ∧
      ∃ r source, Request.ofArguments arguments = .ok r ∧
        files.lookup r.inFile = .ok (.file source) ∧ 2 ^ 31 ≤ source.length := by
  simp only [List.mem_cons, List.not_mem_nil, or_false, not_or] at hcode
  obtain ⟨hzero, hone, htwo, hlast⟩ := hcode
  rcases (exitCode_eq_iff h hzero).mp rfl with ⟨hc, -⟩ | ⟨r, f, hr, hf, hc⟩
  · exact absurd hc htwo
  · rw [← hc] at hone htwo hlast
    rcases Failure.exitCode_cases (f := f) with hc' | hc' | hc' | ⟨hc', o, rfl⟩
    · exact absurd hc' hone
    · exact absurd hc' htwo
    · exact absurd hc' hlast
    · obtain ⟨source, hsource, hrefuses⟩ := hf
      exact ⟨hc.symm, r, source, hr, hsource, hrefuses.long⟩

end Call

/-- A call that fails leaves every file as it was and writes nothing to standard output; one that
succeeds has written the out-file alone, or standard output alone. The exit code tells which stage
failed, and there is no other unless offset arithmetic overflows on a source beyond 2 GiB. -/
theorem call_all_or_nothing (arguments : List String) (files : Workspace) (stdin : List UInt8) :
    (call arguments files stdin = none ↔
      ∃ r, Request.ofArguments arguments = .ok r ∧ r.Unending files stdin) ∧
    ∀ report, call arguments files stdin = some report →
      (report.exitCode ≠ 0 → report.files = files ∧ report.stdout = []) ∧
      (∀ r, Request.ofArguments arguments = .ok r → report.exitCode = 0 →
        if r.run then r.Runs files stdin report else r.Compiles files report) ∧
      (∀ i, Request.ofArguments arguments = .error i → report.files = files) ∧
      (report.exitCode = 1 ↔
        ∃ r e, Request.ofArguments arguments = .ok r ∧ r.Fails files stdin (.unopened e)) ∧
      (report.exitCode = 2 ↔
        (∃ e, Request.ofArguments arguments = .error (.usage e)) ∨
          ∃ r e, Request.ofArguments arguments = .ok r ∧ r.Fails files stdin (.uncompiled e) ∧
            ∀ o, e ≠ .optimize (.overflow o)) ∧
      (report.exitCode = 127 ↔
        ∃ r, Request.ofArguments arguments = .ok r ∧
          ((∃ e, r.Fails files stdin (.unread e)) ∨ ∃ f, r.Fails files stdin (.faulted f))) ∧
      (report.exitCode ∉ [0, 1, 2, 127] → report.exitCode = 101 ∧
        ∃ r source, Request.ofArguments arguments = .ok r ∧
          files.lookup r.inFile = .ok (.file source) ∧ 2 ^ 31 ≤ source.length) := by
  refine ⟨call_eq_none, fun report h => ⟨unchanged_of_exitCode_ne h, ?_, ?_, exitCode_eq_one_iff h,
    exitCode_eq_two_iff h, exitCode_eq_127_iff h, exitCode_otherwise h⟩⟩
  · intro r hr hcode
    exact written_of_exitCode_eq h hr hcode
  · intro i hi
    exact unchanged_of_interruption h hi

theorem call_all_or_nothing_own_source :
    ∃ report, call ["-i", "x", "-o", "x"] ⟨.folder [("x", .file [0x2E])], []⟩ [] = some report ∧
      report.exitCode = 0 ∧
      Request.Compiles ⟨"x", "x", {}, false⟩ ⟨.folder [("x", .file [0x2E])], []⟩ report := by
  have hparts : "x".splitOn "/" = ["x"] := by
    unfold String.splitOn
    rw [if_neg (by decide)]
    unfold String.splitOnAux
    rw [if_neg (by decide), if_neg (by decide)]
    unfold String.splitOnAux
    rw [if_pos (by decide)]
    rfl
  have hfollow : FileTree.follow (.folder [("x", .file [0x2E])])
      (Workspace.startOf ⟨.folder [("x", .file [0x2E])], []⟩ "x") ("x".splitOn "/") = .ok ["x"] := by
    rw [hparts]
    decide +kernel
  have hlookup : Workspace.lookup ⟨.folder [("x", .file [0x2E])], []⟩ "x" = .ok (.file [0x2E]) :=
    Workspace.lookup_of_follow (by decide) hfollow rfl
  have hplace : Workspace.place ⟨.folder [("x", .file [0x2E])], []⟩ "x" = .ok ["x"] := by
    rw [Workspace.place, hparts]
    decide +kernel
  obtain ⟨text, htext⟩ : ∃ text, compile {} .standard [0x2E] = .ok text := ⟨_, rfl⟩
  have hrequest : Request.ofArguments ["-i", "x", "-o", "x"] = .ok ⟨"x", "x", {}, false⟩ := rfl
  have hwrite : Workspace.write ⟨.folder [("x", .file [0x2E])], []⟩ "x" text.toUTF8.toList =
      .ok ⟨.folder [("x", .file text.toUTF8.toList)], []⟩ :=
    bind_eq_ok.mpr ⟨_, hplace, rfl⟩
  have hperform : Request.perform ⟨"x", "x", {}, false⟩ ⟨.folder [("x", .file [0x2E])], []⟩ [] =
      .ok (some { files := ⟨.folder [("x", .file text.toUTF8.toList)], []⟩ }) := by
    refine bind_eq_ok.mpr ⟨_, Request.readSource_eq_ok.mpr hlookup, ?_⟩
    refine bind_eq_ok.mpr ⟨_, Request.compiled_eq_ok.mpr ⟨text, htext, rfl⟩, ?_⟩
    exact bind_eq_ok.mpr ⟨_, Endless.mapError_eq_ok.mpr hwrite, rfl⟩
  have hcall : call ["-i", "x", "-o", "x"] ⟨.folder [("x", .file [0x2E])], []⟩ [] =
      some { files := ⟨.folder [("x", .file text.toUTF8.toList)], []⟩ } := by
    simp only [call, hrequest, hperform]
  refine ⟨_, hcall, rfl, ?_⟩
  exact ((call_all_or_nothing _ _ _).2 _ hcall).2.1 _ hrequest rfl

end Brainfuck.CommandLine
