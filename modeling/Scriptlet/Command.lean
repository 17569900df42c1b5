import Scriptlet.Decimal.Read
import Scriptlet.Machine

/-!
# The command line

`compile SRC [-o OUT]` writes the image of a source text, `run IMAGE` runs an image, and `exec SRC`
runs a source text. The limits of the run, `--max-frames N` and `--max-stack N`, may stand before
the command's name and behind it; an option is given at most **once on each side**, and behind the
name counts more. The value of an option is the next argument, or follows a `=`; behind `-o` it may
follow at once. Behind `--` nothing is an option.

The command line also answers questions about itself: `--help` on either side of a command's name,
`--version` before it, and `help` in place of it. A question is answered **where it stands**, if all
before it is well formed, whatever comes behind it; and no question is a command
(`Inquiry.ofArgs?_eq_none_of_invocation`).
-/

namespace Scriptlet

/-- What is asked for. -/
inductive Command where
  | compile (source : String) (out : Option String)
  | run (image : String)
  | exec (source : String)
deriving Repr, DecidableEq

/-- What is asked for, and on what terms. -/
structure Invocation where
  command : Command
  limits : Limits
deriving Repr, DecidableEq

/-- The options there are. -/
inductive Setting where
  | maxFrames | maxStack | out
deriving Repr, DecidableEq

/-- The options given on one side of the command's name. -/
structure Settings where
  maxFrames : Option Nat := none
  maxStack : Option Nat := none
  out : Option String := none
deriving Repr, DecidableEq

/-- The names of the commands. -/
inductive Verb where
  | compile | run | exec
deriving Repr, DecidableEq

/-- An argument by its form. -/
inductive Argument where
  | plain
  /-- The mark behind which nothing is an option. -/
  | separator
  /-- An option, with its value if that is part of the argument. -/
  | setting (s : Setting) (value : Option String)
  | unknown
deriving Repr, DecidableEq

namespace Argument

/-- An option in full, behind its two dashes. -/
def ofLong (name : List Char) (value : Option String) (takesOut : Bool) : Argument :=
  if name == "max-frames".toList then .setting .maxFrames value
  else if name == "max-stack".toList then .setting .maxStack value
  else if name == "out".toList && takesOut then .setting .out value
  else .unknown

/-- The form of an argument; only a command that writes takes `-o`. -/
def ofText (takesOut : Bool) (text : String) : Argument :=
  match text.toList with
  | ['-'] => .plain
  | ['-', '-'] => .separator
  | '-' :: '-' :: cs =>
    let name := cs.takeWhile (· != '=')
    match cs.dropWhile (· != '=') with
    | [] => ofLong name none takesOut
    | _ :: value => ofLong name (some (String.ofList value)) takesOut
  | '-' :: 'o' :: cs =>
    if takesOut then
      match cs with
      | [] => .setting .out none
      | '=' :: value => .setting .out (some (String.ofList value))
      | value => .setting .out (some (String.ofList value))
    else .unknown
  | '-' :: _ => .unknown
  | _ => .plain

end Argument

namespace Settings

/-- Sets an option that is not set yet. A limit is a 64-bit number, and a path is not empty. -/
def set? (o : Settings) (s : Setting) (value : String) : Option Settings :=
  match s with
  | .maxFrames =>
    if o.maxFrames.isSome then none
    else (Decimal.readNat? UInt64.size value.toList).map fun n ↦ { o with maxFrames := some n }
  | .maxStack =>
    if o.maxStack.isSome then none
    else (Decimal.readNat? UInt64.size value.toList).map fun n ↦ { o with maxStack := some n }
  | .out =>
    if o.out.isSome || value.isEmpty then none else some { o with out := some value }

/-- The limits of a run, from the options before the command's name and those behind it. -/
def limits (before behind : Settings) : Limits :=
  let standard : Limits := {}
  { maxFrames := ((behind.maxFrames <|> before.maxFrames).getD standard.maxFrames)
    maxStack := ((behind.maxStack <|> before.maxStack).getD standard.maxStack) }

end Settings

namespace Verb

/-- The name of a command. -/
def text : Verb → String
  | compile => "compile" | run => "run" | exec => "exec"

/-- The command of a name. -/
def ofText? (name : String) : Option Verb :=
  [compile, run, exec].find? fun v ↦ v.text == name

/-- The command with its path and options. -/
def command (v : Verb) (path : String) (o : Settings) : Command :=
  match v with
  | compile => .compile path o.out
  | run => .run path
  | exec => .exec path

end Verb

/-- How far the arguments behind the command's name are read. -/
structure Behind where
  settings : Settings := {}
  /-- An option that waits for its value. -/
  pending : Option Setting := none
  path : Option String := none
  /-- Nothing is an option any more. -/
  isLiteral : Bool := false
deriving Repr, DecidableEq

namespace Behind

/-- Takes the one path of a command. -/
def setPath? (b : Behind) (text : String) : Option Behind :=
  if b.path.isSome || text.isEmpty then none else some { b with path := some text }

/-- Takes one argument. -/
def next? (v : Verb) (b : Behind) (text : String) : Option Behind :=
  if b.isLiteral then b.setPath? text
  else
    match b.pending, Argument.ofText (v == .compile) text with
    | some s, .plain => do
      let settings ← b.settings.set? s text
      return { b with settings, pending := none }
    | some _, _ => none
    | none, .plain => b.setPath? text
    | none, .separator => some { b with isLiteral := true }
    | none, .setting s (some value) => do
      let settings ← b.settings.set? s value
      return { b with settings }
    | none, .setting s none => some { b with pending := some s }
    | none, .unknown => none

end Behind

namespace Invocation

/-- What the arguments behind a command's name ask for. -/
def ofVerb? (v : Verb) (before : Settings) (args : List String) : Option Invocation := do
  let b ← args.foldlM (Behind.next? v) {}
  let path ← b.path
  if b.pending.isSome then none
  else some ⟨v.command path b.settings, before.limits b.settings⟩

/-- What arguments ask for, given the options read before and one that waits for its value. -/
def readFrom? (before : Settings) (pending : Option Setting) : List String → Option Invocation
  | [] => none
  | text :: args =>
    match pending, Argument.ofText false text with
    | some s, .plain => do readFrom? (← before.set? s text) none args
    | none, .plain => do ofVerb? (← Verb.ofText? text) before args
    | none, .setting s (some value) => do readFrom? (← before.set? s value) none args
    | none, .setting s none => readFrom? before (some s) args
    | _, _ => none

/-- What arguments ask for, if they are well formed. -/
def ofArgs? (args : List String) : Option Invocation :=
  readFrom? {} none args

end Invocation

/-! ### Questions -/

/-- A question about the command line itself. -/
inductive Inquiry where
  | help | version
deriving Repr, DecidableEq

namespace Inquiry

/-- The question that an argument is. Behind a command's name the version is not asked for. -/
def ofText? (isFront : Bool) (text : String) : Option Inquiry :=
  match text.toList with
  | '-' :: 'h' :: _ => some .help
  | '-' :: 'V' :: _ => if isFront then some .version else none
  | '-' :: '-' :: name =>
    if name = "help".toList then some .help
    else if name = "version".toList ∧ isFront then some .version
    else none
  | _ => none

/-- The question in `help`, which takes the name of a command or its own. -/
def ofTopics? : List String → Option Inquiry
  | [] => some .help
  | [name] => if name = "help" ∨ (Verb.ofText? name).isSome then some .help else none
  | _ => none

/-- The question among the arguments behind a command's name, from where they are read. -/
def ofVerb? (v : Verb) (b : Behind) : List String → Option Inquiry
  | [] => none
  | text :: args =>
    match b.isLiteral || b.pending.isSome, ofText? false text with
    | false, some q => some q
    | _, _ => do ofVerb? v (← b.next? v text) args

/-- The question among arguments, given the options read before and one that waits for its value. -/
def readFrom? (before : Settings) (pending : Option Setting) : List String → Option Inquiry
  | [] => none
  | text :: args =>
    match pending, Argument.ofText false text, ofText? true text with
    | none, _, some q => some q
    | some s, .plain, _ => do readFrom? (← before.set? s text) none args
    | none, .plain, none =>
      if text = "help" then ofTopics? args else do ofVerb? (← Verb.ofText? text) {} args
    | none, .setting s (some value), none => do readFrom? (← before.set? s value) none args
    | none, .setting s none, none => readFrom? before (some s) args
    | _, _, _ => none

/-- The question that arguments ask, if they ask one. -/
def ofArgs? (args : List String) : Option Inquiry :=
  readFrom? {} none args

end Inquiry

/-- An argument that is a question is no option, and no path either. -/
theorem Argument.ofText_of_inquiry {takesOut isFront : Bool} {text : String} {q : Inquiry}
    (h : Inquiry.ofText? isFront text = some q) : Argument.ofText takesOut text = .unknown := by
  rw [Inquiry.ofText?] at h
  rw [Argument.ofText]
  split at h
  · next htext => simp [htext]
  · next htext => simp [htext]
  · next name htext =>
    rw [htext]
    split at h
    · next hname =>
      subst hname
      rfl
    · split at h
      · next hname =>
        obtain ⟨rfl, -⟩ := hname
        rfl
      · cases h
  · cases h

/-- Behind a command's name, where a question is asked no command is read. -/
theorem Inquiry.foldlM_next?_eq_none {v : Verb} {args : List String} {b : Behind} {q : Inquiry}
    (h : ofVerb? v b args = some q) : args.foldlM (Behind.next? v) b = none := by
  induction args generalizing b with
  | nil => cases h
  | cons text args ih =>
    rw [List.foldlM_cons]
    rw [ofVerb?] at h
    split at h
    · next hopen hq =>
      rw [Bool.or_eq_false_iff, Option.isSome_eq_false_iff, Option.isNone_iff_eq_none] at hopen
      have hnone : b.next? v text = none := by
        rw [Behind.next?, hopen.1, if_neg Bool.false_ne_true, hopen.2,
          Argument.ofText_of_inquiry hq]
      rw [hnone]
      rfl
    · obtain ⟨b', hb', h⟩ := Option.bind_eq_some_iff.1 h
      rw [hb']
      exact ih h

/-- Where a question is asked no command is read. -/
theorem Inquiry.invocation_readFrom?_eq_none {args : List String} {before : Settings}
    {pending : Option Setting} {q : Inquiry} (h : readFrom? before pending args = some q) :
    Invocation.readFrom? before pending args = none := by
  induction args generalizing before pending with
  | nil => cases h
  | cons text args ih =>
    unfold readFrom? at h
    unfold Invocation.readFrom?
    split at h
    · next hq => rw [Argument.ofText_of_inquiry hq]
    · next hplain =>
      obtain ⟨before', hbefore, h⟩ := Option.bind_eq_some_iff.1 h
      simp only [hplain, hbefore, Option.bind_eq_bind, Option.bind_some]
      exact ih h
    · next hplain _ =>
      simp only [hplain]
      split at h
      · next htext =>
        subst htext
        rfl
      · obtain ⟨v, hv, h⟩ := Option.bind_eq_some_iff.1 h
        simp only [hv, Option.bind_eq_bind, Option.bind_some, Invocation.ofVerb?,
          foldlM_next?_eq_none h, Option.bind_none]
    · next hsetting _ =>
      obtain ⟨before', hbefore, h⟩ := Option.bind_eq_some_iff.1 h
      simp only [hsetting, hbefore, Option.bind_eq_bind, Option.bind_some]
      exact ih h
    · next hsetting _ =>
      simp only [hsetting]
      exact ih h
    · cases h

/-- **No question is a command**: of the two readings of arguments at most one succeeds. -/
theorem Inquiry.ofArgs?_eq_none_of_invocation {args : List String} {i : Invocation}
    (h : Invocation.ofArgs? args = some i) : Inquiry.ofArgs? args = none := by
  rcases hq : Inquiry.ofArgs? args with - | q
  · rfl
  · have hnone : Invocation.ofArgs? args = none := invocation_readFrom?_eq_none hq
    rw [hnone] at h
    cases h

/-- The file that a command reads. -/
def Command.path : Command → String
  | compile source _ => source
  | run image => image
  | exec source => source

end Scriptlet
