import GraphViews.Command.Arguments
import GraphViews.Proofs.Fallible

/-!
# Every request can be made

A command line for a request gives its options first and all that is positional behind `--`.
-/

namespace GraphViews.Command

open Fallible

def Task.command : Task → CommandName
  | .filtered _ _ => .showing
  | .induced _ _ => .subset
  | .residual => .residual

def flag (name : String) (given : Bool) : List String := if given then ["--" ++ name] else []

/-- A value that looks like an option itself stands in the same argument, behind an equals sign. -/
def option (name : String) : Option String → List String
  | none => []
  | some value => if isOption value then ["--" ++ name ++ "=" ++ value] else ["--" ++ name, value]

def Task.options : Task → List String
  | .filtered vertices edges => option "vertices" vertices ++ option "edges" edges
  | .induced complement _ => flag "complement" complement
  | .residual => []

def Task.vids : Task → List String
  | .induced _ vids => vids
  | _ => []

def Request.line (r : Request) : List String :=
  r.task.command.name :: (flag "undirected" (!r.directed) ++ r.task.options ++ "--" :: r.path :: r.task.vids)

namespace Reading

variable {c : CommandName} {fs : List String} {os : List (String × Option String)}

private theorem foldlM_flag {name : String} (hn : name ∈ c.flags) (given : Bool) :
    (flag name given).foldlM (take c) ⟨fs, os, [], false, false⟩ =
      .ok ⟨(if given then [name] else []) ++ fs, os, [], false, false⟩ := by
  cases given with
  | false => rfl
  | true =>
    have htake : ∀ x ∈ c.flags, take c ⟨fs, os, [], false, false⟩ ("--" ++ x) =
        .ok ⟨x :: fs, os, [], false, false⟩ := by
      cases c with
      | subset => exact List.forall_mem_cons.mpr ⟨rfl, List.forall_mem_singleton.mpr rfl⟩
      | showing => exact List.forall_mem_singleton.mpr rfl
      | residual => exact List.forall_mem_singleton.mpr rfl
    rw [flag, if_pos rfl, List.foldlM_cons, htake name hn]
    rfl

/-- Equals signs that a value begins with are lost, but this one begins with a dash. -/
theorem splitLong_value {name value : String} (hn : name ∈ CommandName.showing.options) (hv : isOption value = true) :
    splitLong ("--" ++ name ++ "=" ++ value) = (name, some value) := by
  obtain ⟨cs, hcs⟩ : ∃ cs, value.toList = '-' :: cs := by
    rw [← List.head?_eq_some_iff]
    exact eq_of_beq (Bool.and_eq_true_iff.mp hv).1
  have hvalue : value = String.ofList ('-' :: cs) := by rw [← hcs, String.ofList_toList]
  simp only [CommandName.options, List.mem_cons, List.not_mem_nil, or_false] at hn
  rcases hn with rfl | rfl <;> simp [splitLong, hvalue]

theorem foldlM_option {name : String} (hn : name ∈ CommandName.showing.options) (value : Option String) :
    (option name value).foldlM (take .showing) ⟨fs, os, [], false, false⟩ =
      .ok ⟨fs, (value.map fun v => (name, some v)).toList ++ os, [], false, false⟩ := by
  cases value with
  | none => rfl
  | some value =>
    by_cases hv : isOption value = true
    · have hne : "--" ++ name ++ "=" ++ value ≠ "--" := by
        intro h
        have := congrArg String.toList h
        simp at this
      have hlong : isLong ("--" ++ name ++ "=" ++ value) = true := by simp [isLong]
      have htake : take .showing ⟨fs, os, [], false, false⟩ ("--" ++ name ++ "=" ++ value) =
          .ok ⟨fs, (name, some value) :: os, [], false, false⟩ := by
        simp only [take, hne, hlong, takeLong, splitLong_value hn hv]
        simp [hn]
      rw [option, if_pos hv, List.foldlM_cons, htake]
      rfl
    · have hne : value ≠ "--" := by
        rintro rfl
        exact hv rfl
      have hname : take .showing ⟨fs, os, [], false, false⟩ ("--" ++ name) =
          .ok ⟨fs, (name, none) :: os, [], true, false⟩ := by
        simp only [CommandName.options, List.mem_cons, List.not_mem_nil, or_false] at hn
        rcases hn with rfl | rfl <;> rfl
      have hvalue : take .showing ⟨fs, (name, none) :: os, [], true, false⟩ value =
          .ok ⟨fs, (name, some value) :: os, [], false, false⟩ := by
        simp [take, hne, hv, takeValue]
      rw [option, if_neg hv, List.foldlM_cons, hname, ok_bind, List.foldlM_cons, hvalue]
      rfl

private theorem foldlM_vids (vids ps : List String) :
    vids.foldlM (take .subset) ⟨fs, os, ps, false, true⟩ = .ok ⟨fs, os, vids.reverse ++ ps, false, true⟩ := by
  induction vids generalizing ps with
  | nil => rfl
  | cons vid vids ih =>
    rw [List.reverse_cons, List.append_assoc]
    exact ih (vid :: ps)

end Reading

theorem readArguments_command (verbosity : Nat) (c : CommandName) (args : List String) :
    readArguments verbosity (c.name :: args) = readCommand verbosity c args := by
  cases c <;> rfl

/-- Whatever is to be asked for, there is a command line that does, as long as a subset has an id. -/
theorem readArguments_line (r : Request) (h : ∀ complement, r.task ≠ .induced complement []) :
    readArguments 0 r.line = .run 0 r := by
  have hundirected (c : CommandName) : "undirected" ∈ c.flags := by cases c <;> decide
  obtain ⟨path, directed, task⟩ := r
  simp only [Request.line, readArguments_command, readCommand, Reading.start, List.foldlM_append,
    Reading.foldlM_flag (hundirected _), ok_bind]
  cases task with
  | filtered vertices edges =>
    have hv : "vertices" ∈ CommandName.showing.options := by decide
    have he : "edges" ∈ CommandName.showing.options := by decide
    simp only [Task.command, Task.options, List.foldlM_append, Reading.foldlM_option hv, Reading.foldlM_option he,
      ok_bind]
    -- The names of what has been read are known now, and only their texts are not.
    cases directed <;> cases vertices <;> cases edges <;> rfl
  | induced complement vids =>
    obtain ⟨vid, vids, rfl⟩ := List.exists_cons_of_ne_nil fun hnil => h complement (congrArg _ hnil)
    have hc : "complement" ∈ CommandName.subset.flags := by decide
    have hend (fs : List String) :
        ("--" :: path :: vid :: vids).foldlM (Reading.take .subset) ⟨fs, [], [], false, false⟩ =
          .ok ⟨fs, [], vids.reverse ++ [vid, path], false, true⟩ :=
      Reading.foldlM_vids vids [vid, path]
    have hreverse : (vids.reverse ++ [vid, path]).reverse = path :: vid :: vids := by simp
    simp only [Task.command, Task.options, Task.vids, Reading.foldlM_flag hc, ok_bind, hend]
    cases directed <;> cases complement <;> simp [Reading.finish, hreverse]
  | residual => cases directed <;> rfl

end GraphViews.Command
