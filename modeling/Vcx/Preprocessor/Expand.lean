import Vcx.Preprocessor.Macro

/-!
# Macro expansion

`expandInto`, `expandOne`, `arguments` and `subst`. A stream is the list of the tokens still to
come; the streams here are closed, as a macro argument's or a controlling expression's. The loop
has fuel, which stands for running on: `none` is a run that did not end within it. Where tokens
lie in the generated arena is left out.
-/

namespace Vcx.Preprocessor
set_option autoImplicit false
open Vcx.Token (Kind)

/-- What expansion reads: the macros in force, the scanner's answer to a pasted spelling, the
cap on nested expansion if there is one, and the texts of the builtin macros at a site. -/
structure Env where
  macros : Table
  rescan : String → Option Kind
  maxExpansionDepth : Option Nat
  spelled : Builtin → Site → String

/-- What expansion writes. -/
structure St where
  counter : Nat := 0
  diags : List Diagnostic := []
  deriving DecidableEq, Repr

/-- `errorf`. -/
def St.errorf (st : St) (site : Site) (msg : String) : St := { st with diags := st.diags ++ [⟨site, msg⟩] }

/-- `arg` of `subst`: the argument slot a token of the replacement list names. -/
def Macro.arg (m : Macro) (t : Token) : Option Nat := if t.kind = .ident then m.param t.text else none

/-- `glue`: the last token of `ls` pasted with the first of `rs`. -/
def glue (env : Env) (ls rs : List Token) (at_ : Token) (st : St) : List Token × St :=
  match ls.getLast?, rs with
  | some l, r :: rest =>
    match env.rescan (l.text ++ r.text) with
    | none =>
      (ls ++ rs, st.errorf at_.site
        ("pasting " ++ quoted l.text ++ " and " ++ quoted r.text ++ " does not give a valid preprocessing token"))
    | some kind =>
      let pasted : Token :=
        { kind, text := l.text ++ r.text, adjacent := l.adjacent, hide := l.hide.inter r.hide, exp := at_.exp }
      (ls.dropLast ++ pasted :: rest, st)
  | _, _ => (ls ++ rs, st)

/-- `substRaw`: parameters replaced by their arguments as they are. -/
def substRaw (m : Macro) (is : List Token) (ap : List (List Token)) : List Token :=
  is.flatMap fun t =>
    match m.arg t with
    | some n => if n < ap.length then spaceLike t (ap.getD n []) else [t]
    | none => [t]

/-- The loop of `vaOptRewrite`. The first `skip` tokens belong to a group already rewritten. -/
def vaOptLoop (m : Macro) (ap : List (List Token)) (present : Bool) :
    List Token → Nat → List Token → List Token
  | [], _, out => out
  | _ :: ts, skip + 1, out => vaOptLoop m ap present ts skip out
  | t :: ts, 0, out =>
    if !t.spells "__VA_OPT__" then vaOptLoop m ap present ts 0 (out ++ [t])
    else match vaOptEnd ts with
      | none => vaOptLoop m ap present ts 0 (out ++ [t])
      | some (content, after) =>
        let skip := ts.length - after.length
        match out.getLast? with
        | some last =>
          if last.kind = .hash then
            let text := if present then substRaw m content ap else []
            vaOptLoop m ap present ts skip (out.dropLast ++ [{ stringize text with adjacent := last.adjacent }])
          else if present then vaOptLoop m ap present ts skip (out ++ spaceLike t content)
          else if last.kind = .hashhash then vaOptLoop m ap present ts skip out.dropLast
          else if after.head?.any (·.kind = .hashhash) then vaOptLoop m ap present ts (skip + 1) out
          else vaOptLoop m ap present ts skip out
        | none =>
          if present then vaOptLoop m ap present ts skip (out ++ spaceLike t content)
          else if after.head?.any (·.kind = .hashhash) then vaOptLoop m ap present ts (skip + 1) out
          else vaOptLoop m ap present ts skip out

/-- `vaOptRewrite`. -/
def vaOptRewrite (m : Macro) (is : List Token) (ap : List (List Token)) : List Token :=
  if !m.variadic || !is.any (·.spells "__VA_OPT__") then is
  else vaOptLoop m ap (decide (m.params.length < ap.length) && !(ap.getD m.params.length []).isEmpty) is 0 []

/-- What one round of `subst` comes to: the output, or the expanded argument of slot `n` put on
it in the place of the parameter; and whether the round takes the next token too. -/
inductive Round where
  | done (takesNext : Bool) (os : List Token) (st : St)
  | expanded (takesNext : Bool) (n : Nat) (param : Token)

section
variable (env : Env) (expand : List Token → St → Option (List Token × St)) (m : Macro) (ap : List (List Token))
  (use : Site) (outer : List Expansion)

/-- `body` of `subst`: a token of the replacement list, with where it came from. -/
def bodyToken (t : Token) : Token := { t with exp := ⟨m.name, use, t.span⟩ :: outer }

/-- `#` before a parameter. -/
def stringized (hash : Token) (n : Nat) : Token :=
  bodyToken m use outer { stringize (ap.getD n []) with adjacent := hash.adjacent }

/-- One round of `subst` at `t`, with the token after it. -/
def substRound (t : Token) (next : Option Token) (os : List Token) (st : St) : Round :=
  match t.kind, next, next.bind m.arg with
  -- # parameter
  | .hash, some _, some n => .done true (os ++ [stringized m ap use outer t n]) st
  | .hashhash, some p, some n =>
    -- , ## __VA_ARGS__
    if m.variadic && n = m.params.length && os.getLast?.any (·.kind = .comma) then
      if ap.getD n [] = [] then .done true os.dropLast st else .expanded true n p
    -- ## parameter
    else if ap.getD n [] = [] then .done true os st
    else .done true (glue env os (ap.getD n []) (bodyToken m use outer t) st).1
      (glue env os (ap.getD n []) (bodyToken m use outer t) st).2
  -- ## anything
  | .hashhash, some p, none =>
    .done true (glue env os [bodyToken m use outer p] (bodyToken m use outer t) st).1
      (glue env os [bodyToken m use outer p] (bodyToken m use outer t) st).2
  | _, _, _ =>
    match m.arg t with
    | some n =>
      -- parameter ##: unexpanded, and the ## is left for the next round
      if next.any (·.kind = .hashhash) then
        if ap.getD n [] = [] then .done true os st else .done false (os ++ spaceLike t (ap.getD n [])) st
      else .expanded false n t
    | none => .done false (os ++ [bodyToken m use outer t]) st

/-- The round carried out: whether it took the next token, and the output. -/
def substOne (t : Token) (next : Option Token) (os : List Token) (st : St) : Option (Bool × List Token × St) :=
  match substRound env m ap use outer t next os st with
  | .done takesNext os st => some (takesNext, os, st)
  | .expanded takesNext n param =>
    (expand (ap.getD n []) st).map fun r => (takesNext, os ++ spaceLike param r.1, r.2)

/-- The loop of `subst`. -/
def substLoop : List Token → List Token → St → Option (List Token × St)
  | [], os, st => some (os, st)
  | [t], os, st => (substOne env expand m ap use outer t none os st).map fun r => r.2
  | t :: p :: ts, os, st =>
    (substOne env expand m ap use outer t (some p) os st).bind fun r =>
      if r.1 then substLoop ts r.2.1 r.2.2 else substLoop (p :: ts) r.2.1 r.2.2

/-- `subst`. -/
def subst (is : List Token) (hs : HideSet) (st : St) : Option (List Token × St) :=
  (substLoop env expand m ap use outer (vaOptRewrite m is ap) [] st).map fun r => (hsadd hs r.1, r.2)

end

/-- The loop of `arguments`: the arguments, the closing parenthesis and the rest of the stream. -/
def argumentsLoop (m : Macro) :
    List Token → List (List Token) → List Token → Nat → Nat → Option (List (List Token) × Token × List Token)
  | [], _, _, _, _ => none
  | t :: s, args, cur, depth, slot =>
    match t.kind with
    | .lparen => argumentsLoop m s args (cur ++ [t]) (depth + 1) slot
    | .rparen =>
      if depth = 0 then some (args ++ [cur], t, s) else argumentsLoop m s args (cur ++ [t]) (depth - 1) slot
    | .comma =>
      -- in the variadic slot a comma is a token like any other
      if depth = 0 && !(m.variadic && decide (m.params.length ≤ slot)) then
        argumentsLoop m s (args ++ [cur]) [] depth (slot + 1)
      else argumentsLoop m s args (cur ++ [t]) depth slot
    | _ => argumentsLoop m s args (cur ++ [t]) depth slot

/-- The number of arguments checked, once `M()` of a macro without parameters passes none. -/
def checkCount (args : List (List Token)) (m : Macro) (name : Token) : Except Diagnostic (List (List Token)) :=
  if args.length < m.arity && m.variadic && args.length = m.arity - 1 then .ok (args ++ [[]])
  else if args.length < m.arity then
    .error ⟨name.site, "macro " ++ quoted m.name ++ " requires " ++ toString m.arity ++ " arguments, but " ++
      toString args.length ++ " given"⟩
  else if m.arity < args.length then
    .error ⟨name.site, "macro " ++ quoted m.name ++ " passed " ++ toString args.length ++ " arguments, but takes " ++
      toString m.arity⟩
  else .ok args

/-- `checkArity`. -/
def checkArity (args : List (List Token)) (m : Macro) (name : Token) : Except Diagnostic (List (List Token)) :=
  checkCount (if args = [[]] && m.arity = 0 then [] else args) m name

/-- `arguments`: the arguments and the closing parenthesis, or what is wrong with them, and the
rest of the stream. -/
def arguments (s : List Token) (m : Macro) (name : Token) :
    Except Diagnostic (List (List Token) × Token) × List Token :=
  match argumentsLoop m s [] [] 0 0 with
  | none => (.error ⟨name.site, "unterminated argument list for macro " ++ quoted m.name⟩, [])
  | some (args, rp, s) => ((checkArity args m name).map (·, rp), s)

/-- `builtin`. -/
def builtin (env : Env) (m : Macro) (at_ : Token) (st : St) : List Token × St :=
  let made (kind : Kind) (text : String) : List Token :=
    [{ kind, text, adjacent := at_.adjacent, nlBefore := at_.nlBefore,
       exp := ⟨m.name, at_.site, ⟨none, 0, 0⟩⟩ :: at_.exp }]
  match m.builtin with
  | .notBuiltin => ([], st)
  | .file => (made .stringLit (env.spelled .file at_.site), st)
  | .line => (made .intLit (env.spelled .line at_.site), st)
  | .date => (made .stringLit (env.spelled .date at_.site), st)
  | .time => (made .stringLit (env.spelled .time at_.site), st)
  | .counter => (made .intLit (toString st.counter), { st with counter := st.counter + 1 })

/-- `pushRep`: the replacement in front of the stream, with the invocation's spacing. -/
def pushRep (rep : List Token) (at_ : Token) (s : List Token) : List Token :=
  match rep, s with
  | r :: rep, s => { r with adjacent := at_.adjacent, nlBefore := r.nlBefore || at_.nlBefore } :: rep ++ s
  | [], n :: s => { n with nlBefore := n.nlBefore || at_.nlBefore } :: s
  | [], [] => []

/-- `expandOne` at the head `t` of a stream: whether it invoked a macro, and the stream it leaves. -/
def expandOne (env : Env) (expand : List Token → St → Option (List Token × St)) (t : Token) (rest : List Token)
    (st : St) : Option (Bool × List Token × St) :=
  match env.macros.lookup t.text with
  | none => some (false, t :: rest, st)
  | some m =>
    if t.hide.has m.id then some (false, t :: rest, st)
    else if m.builtin ≠ .notBuiltin then
      let r := builtin env m t st
      some (true, pushRep r.1 t rest, r.2)
    else if m.objLike then
      (subst env expand m [] t.site t.exp m.body (t.hide.add m.id) st).map fun r => (true, pushRep r.1 t rest, r.2)
    else match rest with
      | [] => some (false, t :: rest, st)
      | lp :: s =>
        if lp.kind ≠ .lparen then some (false, t :: rest, st)
        else match arguments s m t with
          | (.error err, s) => some (false, s, { st with diags := st.diags ++ [err] })
          | (.ok (args, rp), s) =>
            (subst env expand m args t.site t.exp m.body ((t.hide.inter rp.hide).add m.id) st).map fun r =>
              (true, pushRep r.1 t s, r.2)

/-- `expandClosed` at nesting `depth`, given the driver. -/
def expandClosedBy (env : Env) (into : Nat → List Token → List Token → St → Option (List Token × St)) (depth : Nat)
    (ts : List Token) (st : St) : Option (List Token × St) :=
  match ts with
  | [] => some ([], st)
  | t :: _ =>
    if env.maxExpansionDepth.any (· < depth + 1) then
      some (ts, st.errorf t.site "macro expansion nested too deeply")
    else into (depth + 1) ts [] st

/-- `expandInto`. A refused invocation has taken its own tokens from the stream, or none, and
the loop drops one more. -/
def expandInto (env : Env) : Nat → Nat → List Token → List Token → St → Option (List Token × St)
  | 0, _, _, _, _ => none
  | _ + 1, _, [], out, st => some (out, st)
  | fuel + 1, depth, t :: rest, out, st =>
    if t.isName then
      (expandOne env (expandClosedBy env (expandInto env fuel) depth) t rest st).bind fun r =>
        if r.1 then expandInto env fuel depth r.2.1 out r.2.2
        else expandInto env fuel depth r.2.1.tail (out ++ [t]) r.2.2
    else expandInto env fuel depth rest (out ++ [t]) st

/-- `expandClosed`. -/
def expandClosed (env : Env) (fuel depth : Nat) (ts : List Token) (st : St) : Option (List Token × St) :=
  expandClosedBy env (expandInto env fuel) depth ts st

end Vcx.Preprocessor
