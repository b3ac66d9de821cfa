import Acess2.Strtoi

/-! The VT100 parser of `vt100.c`, which the kernel's virtual terminals and the terminal
application share. It takes bytes from the front of a buffer and calls the display; nothing of
the display comes back, so a call is described by the operations it asks for, in their order,
by the state it leaves and by what it returns. A call that stops at an assertion or leaves its
argument array has made the calls before that. -/
namespace Vt100

open Strtoi (kernelIsdigit)

inductive Fault where
  /-- an assertion fails -/
  | panic
  /-- a cell outside a text buffer is read or written -/
  | stray
  /-- an index outside `args` is used -/
  | args
  /-- an `int` overflows -/
  | overflow
  /-- the parser is entered again before it has returned, which is not followed -/
  | reentered
  deriving DecidableEq

inductive EscapeMode where
  | normal | ignore | string
  deriving DecidableEq

inductive StringType where
  | ignore | title
  deriving DecidableEq

inductive Direction where
  | all | forward | reverse
  deriving DecidableEq

/-- The calls of `display.h` that the parser makes -/
inductive Display where
  /-- `Display_AddText(Term, 1, "\t")` -/
  | addTab
  | newline
  | setScrollArea (start count : ℤ)
  | scrollDown (countDown : ℤ)
  | setCursor (row col : ℤ)
  | moveCursor (relRow relCol : ℤ)
  | saveCursor
  | restoreCursor
  | clearLine (dir : Direction)
  | clearLines (dir : Direction)
  | resetAttributes
  | setForeground (rgb : UInt32)
  | setBackground (rgb : UInt32)
  | showAltBuffer (enabled : Bool)
  | setTitle (title : List UInt8)
  | sendInput (string : List UInt8)
  deriving DecidableEq

/-- The calls that give the terminal input. Where its PTY echoes, the input is written to the
terminal at once. -/
def Display.sends : Display → Bool
  | .sendInput _ => true
  | _ => false

/-- `tVT100State`; `cache` and `stringCache` hold as many bytes as their lengths say. -/
structure VT100State where
  flags : UInt32
  curFG : ℕ
  curBG : ℕ
  cache : List UInt8
  mode : EscapeMode
  stringType : StringType
  stringCache : List UInt8
  deriving DecidableEq

def VT100State.init : VT100State := ⟨0, 0, 0, [], .normal, .ignore, []⟩

structure Parsed (ρ : Type) where
  ret : Except Fault ρ
  st : VT100State
  ops : List Display

def maxEscapeLen : ℕ := 32
def flagBold : UInt32 := 1
def esc : UInt8 := 0x1b
def semicolon : UInt8 := 59
def questionMark : UInt8 := 63
def intMin : ℤ := -2 ^ 31

def isupper (c : UInt8) : Bool := 65 ≤ c ∧ c ≤ 90
def islower (c : UInt8) : Bool := 97 ≤ c ∧ c ≤ 122
def isalpha (c : UInt8) : Bool := isupper c || islower c

def caVT100Colours : List UInt32 := [
  0x000000, 0x770000, 0x007700, 0x777700, 0x000077, 0x770077, 0x007777, 0xAAAAAA,
  0xCCCCCC, 0xFF0000, 0x00FF00, 0xFFFF00, 0x0000FF, 0xFF00FF, 0x00FFFF, 0xFFFFFF]

def locateEos : List UInt8 → Option ℕ
  | [] => none
  | c :: rest =>
    if c = 0x07 then some 0
    else if c = 0x9c then some 0
    else if c = esc ∧ rest.head? = some 92 then some 0
    else (locateEos rest).map (· + 1)

def more (st : VT100State) : Parsed ℕ := ⟨.ok 0, st, []⟩

-- What the memory behind the sixteen colours holds, read as more of them
variable (beyond : ℕ → UInt32)

def colour (i : ℕ) : UInt32 := caVT100Colours.getD i (beyond i)

/-- `args`, `argc`, the byte `c` behind the arguments and the bytes behind it -/
structure Sequence where
  args : Fin 6 → ℕ
  argc : ℕ
  c : UInt8
  rest : List UInt8

/-- A turn of the loops that read the arguments: a digit for the inner, a semicolon for the outer -/
def argsTurn (args : Fin 6 → ℕ) (argc : ℕ) (c : UInt8) : Except Fault (Option ((Fin 6 → ℕ) × ℕ)) :=
  if kernelIsdigit c then
    if h : argc < 6 then
      let value := args ⟨argc, h⟩ * 10 + (c.toNat - 48)
      if value < 2 ^ 31 then .ok (some (Function.update args ⟨argc, h⟩ value, argc))
      else .error .overflow
    else .error .args
  else if c = semicolon then .ok (some (args, argc + 1))
  else .ok none

/-- The arguments from the byte `c` on; `none` where the buffer ends before they do -/
def readArgs (args : Fin 6 → ℕ) (argc : ℕ) (c : UInt8) (rest : List UInt8) :
    Except Fault (Option Sequence) :=
  match argsTurn args argc c with
  | .error f => .error f
  | .ok none => .ok (some ⟨args, argc + 1, c, rest⟩)
  | .ok (some (args, argc)) =>
    match rest with
    | [] => .ok none
    | next :: rest => readArgs args argc next rest

structure Effect where
  fault : Option Fault
  st : VT100State
  ops : List Display

section

variable (st : VT100State)

def Effect.nothing : Effect := ⟨none, st, []⟩
def Effect.call (op : Display) : Effect := ⟨none, st, [op]⟩

def privateMode (seq : Sequence) : Effect :=
  let switch (set : Bool) : Effect :=
    if seq.args 0 = 1047 ∨ seq.args 0 = 1049 then .call st (.showAltBuffer set) else .nothing st
  match Char.ofUInt8 seq.c with
  | 'h' => switch true
  | 'l' => switch false
  | _ => .nothing st

def foreground : VT100State × Display :=
  (st, .setForeground (colour beyond (st.curFG + if st.flags &&& flagBold ≠ 0 then 8 else 0)))

def background : VT100State × Display :=
  (st, .setBackground (colour beyond st.curBG))

def selectGraphic (n : ℕ) : VT100State × Option Display :=
  let shown (r : VT100State × Display) : VT100State × Option Display := (r.1, some r.2)
  if n = 0 then ({ st with flags := 0 }, some .resetAttributes)
  else if n = 1 then
    ({ st with flags := st.flags ||| flagBold },
      some (.setForeground (colour beyond (st.curFG + 8))))
  else if 30 ≤ n ∧ n ≤ 37 then shown (foreground beyond { st with curFG := n - 30 })
  else if n = 39 then shown (foreground beyond { st with curFG := 7 })
  else if 40 ≤ n ∧ n ≤ 47 then shown (background beyond { st with curBG := n - 40 })
  else if n = 49 then shown (background beyond { st with curBG := 0 })
  else if 90 ≤ n ∧ n ≤ 97 then
    -- the foreground is shown in the colour of the background
    ({ st with curFG := n - 90 + 8 }, some (.setForeground (colour beyond st.curBG)))
  else if 100 ≤ n ∧ n ≤ 107 then shown (background beyond { st with curBG := n - 100 + 8 })
  else (st, none)

end

/-- `for( int i = 0; i < argc; i ++ ) switch(args[i])`, with `n` turns left -/
def selectGraphics (args : Fin 6 → ℕ) : (n i : ℕ) → VT100State → List Display → Effect
  | 0, _, st, ops => ⟨none, st, ops⟩
  | n + 1, i, st, ops =>
    if h : i < 6 then
      let (st, op) := selectGraphic beyond st (args ⟨i, h⟩)
      selectGraphics args n (i + 1) st (ops ++ op.toList)
    else ⟨some .args, st, ops⟩

def trueColour (args : Fin 6 → ℕ) : UInt32 :=
  UInt32.ofNat (args 2) <<< 16 ||| UInt32.ofNat (args 3) <<< 8 ||| UInt32.ofNat (args 4)

def command (st : VT100State) (seq : Sequence) : Effect :=
  let args := seq.args
  let argc := seq.argc
  -- `(args[0] != 0 ? args[0] : 1)` and `(argc >= 1 ? args[0] : 1)`
  let step : ℤ := if args 0 ≠ 0 then args 0 else 1
  let count : ℤ := if 1 ≤ argc then args 0 else 1
  match Char.ofUInt8 seq.c with
  | 'A' => .call st (.moveCursor (-step) 0)
  | 'B' => .call st (.moveCursor step 0)
  | 'C' => .call st (.moveCursor 0 step)
  | 'D' => .call st (.moveCursor 0 (-step))
  | 'H' =>
    if argc = 0 then .call st (.setCursor 0 0)
    else if argc = 1 then .call st (.setCursor (args 0 - 1) 0)
    else if argc = 2 then .call st (.setCursor (args 0 - 1) (args 1 - 1))
    else .nothing st
  | 'J' =>
    if args 0 = 0 then .call st (.clearLines .forward)
    else if args 0 = 1 then .call st (.clearLines .reverse)
    else if args 0 = 2 then .call st (.clearLines .all)
    else .nothing st
  | 'K' =>
    if args 0 = 0 then .call st (.clearLine .forward)
    else if args 0 = 1 then .call st (.clearLine .reverse)
    else if args 0 = 2 then .call st (.clearLine .all)
    else .nothing st
  | 'S' => .call st (.scrollDown (-count))
  | 'T' => .call st (.scrollDown count)
  | 'c' =>
    -- "\x1b[?1;2c"
    if args 0 = 0 then .call st (.sendInput [esc, 91, 63, 49, 59, 50, 99]) else .nothing st
  | 'f' =>
    if argc ≠ 2 then .call st (.setCursor 0 0)
    else .call st (.setCursor (args 0 - 1) (args 1 - 1))
  -- the modes are only named in the log
  | 'h' => if argc ≤ 6 then .nothing st else ⟨some .args, st, []⟩
  | 'l' => if argc ≤ 6 then .nothing st else ⟨some .args, st, []⟩
  | 'm' =>
    if argc = 0 then .call st .resetAttributes
    else if args 0 = 48 then
      if args 1 = 2 then .call st (.setBackground (trueColour args)) else .nothing st
    else if args 0 = 38 then
      if args 1 = 2 then .call st (.setForeground (trueColour args)) else .nothing st
    else selectGraphics beyond args argc 0 st []
  | 'r' =>
    let height : ℤ := args 1 - args 0 + 1
    if height < 2 ^ 31 then .call st (.setScrollArea (args 0 - 1) height)
    else ⟨some .overflow, st, []⟩
  | 's' => .call st .saveCursor
  | 'u' => .call st .restoreCursor
  | _ => .nothing st

/-- The command behind the arguments; `len` bytes were there in all. -/
def handleCommand (st : VT100State) (len : ℕ) (question : Bool) (seq : Sequence) : Parsed ℕ :=
  let j := len - seq.rest.length
  if !isalpha seq.c then ⟨.ok j, st, []⟩
  else
    let effect := if question then privateMode st seq else command beyond st seq
    ⟨match effect.fault with
      | none => .ok j
      | some f => .error f, effect.st, effect.ops⟩

def handleArgs (st : VT100State) (len : ℕ) (question : Bool) (c : UInt8) (rest : List UInt8) :
    Parsed ℕ :=
  if kernelIsdigit c ∨ c = semicolon then
    match readArgs (fun _ => 0) 0 c rest with
    | .error f => ⟨.error f, st, []⟩
    | .ok none => more st
    | .ok (some seq) => handleCommand beyond st len question seq
  else handleCommand beyond st len question ⟨fun _ => 0, 0, c, rest⟩

/-- `Term_HandleVT100_Long` -/
def handleLong (st : VT100State) (buffer : List UInt8) : Parsed ℕ :=
  match buffer with
  | [] => more st
  | c :: rest =>
    if c = questionMark then
      match rest with
      | [] => more st
      | c :: rest => handleArgs beyond st buffer.length true c rest
    else handleArgs beyond st buffer.length false c rest

/-- `Ps`, and the bytes from the first that is not a digit on -/
def readNumber (ps : ℕ) : List UInt8 → Except Fault (ℕ × List UInt8)
  | [] => .ok (ps, [])
  | c :: rest =>
    if kernelIsdigit c then
      let value := ps * 10 + (c.toNat - 48)
      if value < 2 ^ 31 then readNumber value rest else .error .overflow
    else .ok (ps, c :: rest)

/-- `Term_HandleVT100_OSC` -/
def handleOSC (st : VT100State) (buf : List UInt8) : Parsed ℕ :=
  let string (type : StringType) : VT100State := { st with mode := .string, stringType := type }
  if buf.length < 2 then more st
  else
    match readNumber 0 buf with
    | .error f => ⟨.error f, st, []⟩
    | .ok (_, []) => more st
    | .ok (ps, c :: rest) =>
      if c ≠ semicolon then ⟨.ok (buf.length - (rest.length + 1)), string .ignore, []⟩
      else ⟨.ok (buf.length - rest.length), string (if ps ≤ 2 then .title else .ignore), []⟩

def Parsed.behindPrefix (p : Parsed ℕ) : Parsed ℕ :=
  { p with ret := p.ret.map fun tmp => if tmp = 0 then 0 else tmp + 2 }

section

variable (st : VT100State) (buf : List UInt8)

/-- `Term_HandleVT100_Short`; there are at least two bytes. -/
def handleShort : Parsed ℕ :=
  let called (op : Display) : Parsed ℕ := ⟨.ok 2, st, [op]⟩
  let oneMore : Parsed ℕ := if buf.length ≤ 2 then more st else ⟨.ok 3, st, []⟩
  match Char.ofUInt8 (buf.getD 1 0) with
  | '[' => (handleLong beyond st (buf.drop 2)).behindPrefix
  | ']' => (handleOSC st (buf.drop 2)).behindPrefix
  | '#' => oneMore
  | '(' => oneMore
  | ')' => oneMore
  | '*' => oneMore
  | '+' => oneMore
  | '7' => called .saveCursor
  | '8' => called .restoreCursor
  | 'D' => called (.moveCursor 1 0)
  | 'E' => called (.moveCursor 1 intMin)
  | 'M' => called (.moveCursor (-1) 0)
  | _ => ⟨.ok 2, st, []⟩

def handleString : Parsed ℤ :=
  let pos := locateEos buf
  let bytes := pos.getD buf.length
  let cached := st.stringCache ++ buf.take bytes
  if pos ≠ some 0 then ⟨.ok bytes, { st with stringCache := cached }, []⟩
  else
    ⟨.ok 1, { st with stringCache := []
                      mode := if buf.headD 0 = esc then .ignore else .normal },
      match st.stringType with
      | .title => [.setTitle cached]
      | .ignore => []⟩

def handleEscape : Parsed ℤ :=
  let newBytes := min (maxEscapeLen - st.cache.length) buf.length
  let oldLen := st.cache.length
  let cache := st.cache ++ buf.take newBytes
  if newBytes = 0 then ⟨.ok 0, { st with cache := [] }, []⟩
  else if cache.length ≤ 1 then ⟨.ok 1, { st with cache := cache }, []⟩
  else
    let short := handleShort beyond { st with cache := [] } cache
    match short.ret with
    | .error f => ⟨.error f, { short.st with cache := cache }, short.ops⟩
    | .ok ret =>
      if ret = 0 then ⟨.ok newBytes, { short.st with cache := cache }, short.ops⟩
      else if ret ≤ oldLen then ⟨.error .panic, { short.st with cache := cache }, short.ops⟩
      else ⟨.ok (ret - oldLen), { short.st with cache := [] }, short.ops⟩

end

def endsText (c : UInt8) : Bool := c = esc ∨ c = 0x08 ∨ c = 0x09 ∨ c = 0x0a ∨ c = 0x0d

def handlePlain (st : VT100State) (buf : List UInt8) : Parsed ℤ :=
  let called (n : ℤ) (op : Display) : Parsed ℤ := ⟨.ok n, st, [op]⟩
  let c := buf.headD 0
  if c = 0x08 then called 1 (.moveCursor 0 (-1))
  else if c = 0x09 then called 1 .addTab
  else if c = 0x0a then called 1 .newline
  else if c = 0x0d then
    if buf.getD 1 0 = 0x0a then called 2 .newline else called 1 (.moveCursor 0 intMin)
  else ⟨.ok (-(buf.takeWhile fun c => !endsText c).length), st, []⟩

/-- `Term_HandleVT100`: minus the number of bytes for the screen, or the number it has dealt with -/
def handleVT100 (st : VT100State) (buf : List UInt8) : Parsed ℤ :=
  match st.mode with
  | .ignore => ⟨.ok 1, { st with mode := .normal }, []⟩
  | .string => handleString st buf
  | .normal =>
    if st.cache ≠ [] ∨ buf.headD 0 = esc then handleEscape beyond st buf else handlePlain st buf

end Vt100
