import GraphViews.Proofs.Command.Asking
import GraphViews.Proofs.Command.InStep

/-!
# With and without directions

The flag that drops the directions can stand wherever an option can, and changes nothing about a request but its
directions. So it changes nothing that is printed.
-/

namespace GraphViews.Command

open GraphViews.Tables GraphViews.Graph GraphViews.Record Fallible

/-- Another option can stand behind these arguments: none of them waits for its value, and none is `--`. -/
def AtOption (c : CommandName) (args : List String) : Prop :=
  ∀ r, args.foldlM (Reading.take c) .start = .ok r → r.waiting = false ∧ r.trailing = false

namespace Reading

variable {c : CommandName} {r : Reading} {fs : List String}

def under (r : Reading) (fs : List String) : Reading := { r with flags := r.flags ++ fs }

private theorem takePositional_under (r : Reading) (c : CommandName) (fs : List String) (arg : String) :
    (r.under fs).takePositional c arg = (r.takePositional c arg).map fun s => s.under fs := by
  have hp : (r.under fs).positionals = r.positionals := rfl
  rw [takePositional, takePositional, hp]
  cases c.positionals.all fun n => r.positionals.length < n <;> rfl

private theorem takeValue_under (r : Reading) (fs : List String) (arg : String) :
    (r.under fs).takeValue arg = (r.takeValue arg).under fs := by
  simp only [takeValue, under]
  split <;> rfl

private theorem takeLong_under (r : Reading) (c : CommandName) (fs : List String) (arg : String) :
    (r.under fs).takeLong c arg = (r.takeLong c arg).map fun s => s.under fs := by
  simp only [takeLong, under]
  split
  · rfl
  split
  · rfl
  split
  · rfl
  split <;> rfl

/-- What is read of an argument does not depend on the flags that were given before. -/
theorem take_under (c : CommandName) (r : Reading) (fs : List String) (arg : String) :
    take c (r.under fs) arg = (take c r arg).map fun s => s.under fs := by
  have ht : (r.under fs).trailing = r.trailing := rfl
  have hw : (r.under fs).waiting = r.waiting := rfl
  simp only [take, ht, hw, takePositional_under, takeValue_under, takeLong_under]
  repeat' split
  all_goals rfl

private theorem foldlM_under (c : CommandName) (r : Reading) (fs args : List String) :
    args.foldlM (take c) (r.under fs) = (args.foldlM (take c) r).map fun s => s.under fs := by
  induction args generalizing r with
  | nil => rfl
  | cons arg args ih =>
    rw [List.foldlM_cons, List.foldlM_cons, take_under]
    cases take c r arg with
    | error i => rfl
    | ok s => exact ih s

private theorem take_undirected (hw : r.waiting = false) (ht : r.trailing = false) :
    take c r "--undirected" = .ok { r with flags := "undirected" :: r.flags } := by
  obtain ⟨fs, os, ps, w, t⟩ := r
  obtain rfl : w = false := hw
  obtain rfl : t = false := ht
  cases c <;> rfl

private theorem takePositional_ok {s : Reading} {arg : String} (h : r.takePositional c arg = .ok s) :
    s = { r with positionals := arg :: r.positionals } := by
  unfold takePositional at h
  split at h
  · exact (Except.ok.inj h).symm
  · cases h

private theorem takeLong_cases {s : Reading} {arg : String} (h : r.takeLong c arg = .ok s) :
    (∃ name value, name ∈ c.options ∧
      s = { r with options := (name, value) :: r.options, waiting := value.isNone }) ∨
    ∃ name ∈ c.flags, s = { r with flags := name :: r.flags, waiting := false } := by
  simp only [takeLong] at h
  split at h
  · rename_i hname
    exact .inl ⟨_, _, List.contains_iff_mem.mp hname, (Except.ok.inj h).symm⟩
  split at h
  · rename_i hname
    exact .inr ⟨_, List.contains_iff_mem.mp hname, (Except.ok.inj h).symm⟩
  split at h
  · cases h
  split at h <;> cases h

theorem take_cases {s : Reading} {arg : String} (h : take c r arg = .ok s) :
    s = { r with positionals := arg :: r.positionals } ∨ s = { r with waiting := false, trailing := true } ∨
    s = r.takeValue arg ∨
    (∃ name value, name ∈ c.options ∧
      s = { r with options := (name, value) :: r.options, waiting := value.isNone }) ∨
    ∃ name ∈ c.flags, s = { r with flags := name :: r.flags, waiting := false } := by
  unfold take at h
  split at h
  · exact .inl (takePositional_ok h)
  split at h
  · exact .inr (.inl (Except.ok.inj h).symm)
  split at h
  · exact .inr (.inr (.inl (Except.ok.inj h).symm))
  split at h
  · exact .inr (.inr (.inr (takeLong_cases h)))
  split at h
  · cases h
  · exact .inl (takePositional_ok h)

/-- All options that have been read are those of the command. -/
def Known (c : CommandName) (r : Reading) : Prop := ∀ o ∈ r.options, o.1 ∈ c.options

private theorem known_start (c : CommandName) : start.Known c := by
  intro o ho
  cases ho

theorem Known.take {s : Reading} (h : r.Known c) {arg : String} (hs : Reading.take c r arg = .ok s) : s.Known c := by
  obtain rfl | rfl | rfl | ⟨name, value, hname, rfl⟩ | ⟨name, -, rfl⟩ := take_cases hs
  · exact h
  · exact h
  · obtain ⟨fs, os, ps, w, t⟩ := r
    cases os with
    | nil => exact h
    | cons o os => exact List.forall_mem_cons.mpr (List.forall_mem_cons.mp h)
  · exact List.forall_mem_cons.mpr ⟨hname, h⟩
  · exact h

theorem Known.foldlM {s : Reading} (h : r.Known c) {args : List String} (hs : args.foldlM (Reading.take c) r = .ok s) :
    s.Known c :=
  foldlM_induction (P := fun r _ => r.Known c) h (fun _ _ _ _ h ht => h.take ht) hs

/-- What is asked for by the flags, options and positional arguments of a command. -/
def asked (c : CommandName) (directed complement : Bool) (value : String → Option String) (positionals : List String) :
    Except Invocation Request :=
  match c, positionals with
  | .showing, [path] => .ok ⟨path, directed, .filtered (value "vertices") (value "edges")⟩
  | .subset, path :: vid :: vids => .ok ⟨path, directed, .induced complement (vid :: vids)⟩
  | .residual, [path] => .ok ⟨path, directed, .residual⟩
  | _, _ => .error .refused

private theorem asked_cases (c : CommandName) (complement : Bool) (value : String → Option String) (ps : List String) :
    (∀ d, asked c d complement value ps = .error .refused) ∨
    ∃ path task, ∀ d, asked c d complement value ps = .ok ⟨path, d, task⟩ := by
  rcases ps with _ | ⟨path, _ | ⟨vid, vids⟩⟩
  · exact .inl fun _ => by cases c <;> rfl
  · cases c with
    | subset => exact .inl fun _ => rfl
    | showing => exact .inr ⟨path, _, fun _ => rfl⟩
    | residual => exact .inr ⟨path, _, fun _ => rfl⟩
  · cases c with
    | subset => exact .inr ⟨path, _, fun _ => rfl⟩
    | showing => exact .inl fun _ => rfl
    | residual => exact .inl fun _ => rfl

private theorem finish_eq (r : Reading) (c : CommandName) :
    r.finish c = if (r.flags ++ r.options.map Prod.fst).Nodup ∧ r.options.all (·.2.isSome) then
      asked c (!r.flags.contains "undirected") (r.flags.contains "complement")
        (fun name => (r.options.lookup name).join) r.positionals.reverse
    else .error .refused := by
  unfold finish asked
  rfl

/-- If the flag was not given otherwise, all that it does to a request is to drop the directions. -/
theorem finish_undirected (hk : r.Known c) (hd : ∀ q, (r.under fs).finish c = .ok q → q.directed = true) :
    (r.under ("undirected" :: fs)).finish c =
      ((r.under fs).finish c).map fun q => { q with directed := false } := by
  let names := (r.flags ++ fs) ++ r.options.map Prod.fst
  have hoption : "undirected" ∉ r.options.map Prod.fst := by
    intro h
    obtain ⟨o, ho, hname⟩ := List.mem_map.mp h
    have hc : "undirected" ∉ c.options := by cases c <;> decide
    exact hc (hname ▸ hk o ho)
  have hnodup : ((r.flags ++ "undirected" :: fs) ++ r.options.map Prod.fst).Nodup ↔
      "undirected" ∉ names ∧ names.Nodup := by
    rw [← List.nodup_cons]
    exact (List.perm_middle.append_right _).nodup_iff
  have hcomplement : (r.flags ++ "undirected" :: fs).contains "complement" = (r.flags ++ fs).contains "complement" := by
    simp
  rw [finish_eq] at hd ⊢
  rw [finish_eq]
  simp only [under, hnodup, hcomplement] at hd ⊢
  rcases asked_cases c ((r.flags ++ fs).contains "complement") (fun name => (r.options.lookup name).join)
    r.positionals.reverse with hrefused | ⟨path, task, hasked⟩
  · simp only [hrefused, ite_self]
    rfl
  · simp only [hasked] at hd ⊢
    by_cases hn : names.Nodup ∧ r.options.all (·.2.isSome) = true
    · have hflags : "undirected" ∉ r.flags ++ fs := by simpa using hd _ (if_pos hn)
      have hnew : "undirected" ∉ names := List.mem_append.not.mpr (not_or.mpr ⟨hflags, hoption⟩)
      rw [if_pos hn, if_pos ⟨⟨hnew, hn.1⟩, hn.2⟩]
      simp [Except.map]
    · rw [if_neg hn, if_neg fun h => hn ⟨h.1.2, h.2⟩]
      rfl

def ask (c : CommandName) (args : List String) : Except Invocation Request :=
  args.foldlM (take c) start >>= fun r => r.finish c

/-- Where an option can stand, the flag drops the directions of a request and leaves all else of it. -/
theorem ask_undirected {pre post : List String} (ho : AtOption c pre)
    (hd : ∀ q, ask c (pre ++ post) = .ok q → q.directed = true) :
    ask c (pre ++ "--undirected" :: post) = (ask c (pre ++ post)).map fun q => { q with directed := false } := by
  simp only [ask, List.foldlM_append, List.foldlM_cons] at hd ⊢
  cases hr : pre.foldlM (take c) start with
  | error i => rfl
  | ok r =>
    obtain ⟨hw, ht⟩ := ho r hr
    -- The flags before this place are set aside, as nothing behind it is read by them.
    let s : Reading := { r with flags := [] }
    have hk : r.Known c := (known_start c).foldlM hr
    have hs : s.Known c := hk
    have hold : post.foldlM (take c) r = (post.foldlM (take c) s).map fun t => t.under r.flags :=
      foldlM_under c s r.flags post
    have hnew : post.foldlM (take c) { r with flags := "undirected" :: r.flags } =
        (post.foldlM (take c) s).map fun t => t.under ("undirected" :: r.flags) :=
      foldlM_under c s ("undirected" :: r.flags) post
    simp only [hr, ok_bind, take_undirected hw ht, hold, hnew] at hd ⊢
    cases hp : post.foldlM (take c) s with
    | error i => rfl
    | ok t =>
      rw [hp] at hd
      exact finish_undirected (hs.foldlM hp) hd

end Reading

/-- What comes of a command line that has been read. -/
def Invocation.report (files : String → Database) : Invocation → Report
  | .run verbosity request => .ofStep verbosity (perform files request)
  | .version text => ⟨0, text ++ "\n", [], none⟩
  | .help => ⟨0, usage ++ "\n", [], none⟩
  | .refused => ⟨1, "", [], some usage⟩

variable {files : String → Database}

theorem run_eq (files : String → Database) (args : List String) :
    run files args = (readArguments 0 args).report files := by
  unfold run
  cases readArguments 0 args <;> rfl

theorem report_directed (verbosity : Nat) (path : String) (task : Task) (d d' : Bool) :
    (Invocation.run verbosity ⟨path, d, task⟩).report files =
      (Invocation.run verbosity ⟨path, d', task⟩).report files :=
  congrArg (Report.ofStep verbosity) (perform_directed files path task d d')

private theorem readCommand_ok {verbosity : Nat} {c : CommandName} {args : List String} {q : Request}
    (h : Reading.ask c args = .ok q) : readCommand verbosity c args = .run verbosity q := by
  unfold Reading.ask at h
  simp only [readCommand, h]

private theorem readCommand_error {verbosity : Nat} {c : CommandName} {args : List String} {i : Invocation}
    (h : Reading.ask c args = .error i) : readCommand verbosity c args = i := by
  unfold Reading.ask at h
  simp only [readCommand, h]

theorem report_undirected {c : CommandName} {pre post : List String} (ho : AtOption c pre) {verbosity : Nat}
    (hd : ∀ r, readCommand verbosity c (pre ++ post) = .run verbosity r → r.directed = true) :
    (readCommand verbosity c (pre ++ "--undirected" :: post)).report files =
      (readCommand verbosity c (pre ++ post)).report files := by
  have hask := Reading.ask_undirected ho fun q hq => hd q (readCommand_ok hq)
  cases hq : Reading.ask c (pre ++ post) with
  | error i =>
    rw [hq] at hask
    rw [readCommand_error hq, readCommand_error hask]
  | ok q =>
    rw [hq] at hask
    rw [readCommand_ok hq, readCommand_ok hask]
    exact report_directed verbosity q.path q.task false q.directed

/-- What stands behind options is read with another verbosity, or not at all. -/
theorem readArguments_options {lead : List String} (hl : ∀ a ∈ lead, isOption a = true) (verbosity : Nat) :
    (∃ n, ∀ args, readArguments verbosity (lead ++ args) = readArguments n args) ∨
    ∃ i, ∀ args, readArguments verbosity (lead ++ args) = i := by
  induction lead generalizing verbosity with
  | nil => exact .inl ⟨verbosity, fun _ => rfl⟩
  | cons a lead ih =>
    have ha : isOption a = true := hl a List.mem_cons_self
    have hcommand : (CommandName.all.find? fun c => c.name = a) = none := by
      refine List.find?_eq_none.mpr ?_
      intro c _ hc
      obtain rfl : c.name = a := of_decide_eq_true hc
      cases c <;> cases ha
    have hhelp : a ≠ "help" := by
      rintro rfl
      cases ha
    simp only [List.cons_append, readArguments, hcommand, if_neg hhelp, ha, if_true]
    split
    · exact .inr ⟨_, fun _ => rfl⟩
    · split
      · exact ih (fun b hb => hl b (List.mem_cons_of_mem a hb)) _
      all_goals exact .inr ⟨_, fun _ => rfl⟩

/-- Whether its edges are read with directions changes nothing about a run: neither what it prints, nor its exit code,
nor what it logs or complains of. That holds of any two command lines that ask for the same with directions and without
them, whatever the databases are; and of any command line that does not ask for undirected edges and the same one with
the flag for them, wherever an option of the command can stand. -/
theorem undirected_prints_the_same (files : String → Database) :
    (∀ args args' verbosity path task,
      readArguments 0 args = .run verbosity ⟨path, true, task⟩ →
      readArguments 0 args' = .run verbosity ⟨path, false, task⟩ → run files args = run files args') ∧
    ∀ (lead : List String) (c : CommandName) (pre post : List String),
      (∀ a ∈ lead, isOption a = true) → AtOption c pre →
      let plain := lead ++ c.name :: (pre ++ post)
      let undirected := lead ++ c.name :: (pre ++ "--undirected" :: post)
      (∀ verbosity r, readArguments 0 plain = .run verbosity r → r.directed = true) →
      run files undirected = run files plain := by
  constructor
  · intro args args' verbosity path task h h'
    rw [run_eq, run_eq, h, h']
    exact report_directed verbosity path task true false
  · intro lead c pre post hl ho plain undirected hd
    rw [run_eq, run_eq]
    rcases readArguments_options hl 0 with ⟨n, hn⟩ | ⟨i, hi⟩
    · simp only [plain, undirected, hn, readArguments_command] at hd ⊢
      refine report_undirected ho ?_
      intro r hr
      exact hd n r hr
    · rw [hi, hi]

/-- Parallel edges in opposite orientations and a loop, under an expression that tells the orientations apart. -/
theorem undirected_prints_the_same_oriented :
    let V : List VertexRow := [⟨1, 0⟩, ⟨2, 5⟩]
    let E : List EdgeRow := [⟨1, 2, 0, 7⟩, ⟨2, 1, 0, 3⟩, ⟨2, 2, 0, 1⟩]
    let files (_ : String) : Database := ⟨[("vertices", vertexTable V), ("edges", edgeTable E)]⟩
    let text := "src < dst || src == dst"
    let plain := ["-v", "show", "--edges", text, "db"]
    let undirected := ["-v", "show", "--edges", text, "--undirected", "db"]
    let s : Snapshot := ⟨V, [⟨1, 2, 0, 7⟩, ⟨2, 2, 0, 1⟩]⟩
    readArguments 0 plain = .run 1 ⟨"db", true, .filtered none (some text)⟩ ∧
      readArguments 0 undirected = .run 1 ⟨"db", false, .filtered none (some text)⟩ ∧
      run files undirected = run files plain ∧ (run files plain).code = 0 ∧
      (run files plain).stdout = s.text ++ (Summary.mk 2 3 2 2).text ++ "\n" := by
  intro V E files text plain undirected s
  have hplain : readArguments 0 plain = .run 1 ⟨"db", true, .filtered none (some text)⟩ := by decide +kernel
  have hundirected : readArguments 0 undirected = .run 1 ⟨"db", false, .filtered none (some text)⟩ := by decide +kernel
  have hedges : option "edges" (some text) = ["--edges", text] := if_neg (by decide +kernel)
  have hread := @Reading.foldlM_option [] [] "edges" (by decide) (some text)
  have hoption : AtOption .showing ["--edges", text] := by
    intro r hr
    rw [← hedges, Reading.start, hread] at hr
    cases hr
    exact ⟨rfl, rfl⟩
  have hsame : run files undirected = run files plain := by
    refine (undirected_prints_the_same files).2 ["-v"] .showing ["--edges", text] ["db"] (by decide) hoption ?_
    intro verbosity r hr
    obtain ⟨-, rfl⟩ := Invocation.run.inj (hplain.symm.trans hr)
    rfl
  have hload : loadDatabase (files "db") true = load true V E := loadDatabase_tables true V E
  obtain ⟨g, hg⟩ : ∃ g, load true V E = .ok g := exists_ok (by decide +kernel)
  have hk : ∃ k, Filter.compile text .edge = .ok k := exists_ok (by decide +kernel)
  have hshows : Shows g (.filtered none (some text)) _ _ := shows_filtered (by simp) (by rintro t ⟨⟩; exact hk) g
  have hprint := result_perform_shows (r := ⟨"db", true, _⟩) (hload.trans hg) hg hshows
  have hselect : select (fun r => Filter.accepts none .vertex r.values)
      (fun r => Filter.accepts (some text) .edge r.values) V E = s := by decide +kernel
  rw [hselect] at hprint
  refine ⟨hplain, hundirected, hsame, ?_⟩
  rw [run_eq, hplain]
  exact Report.ofStep_ok hprint

end GraphViews.Command
