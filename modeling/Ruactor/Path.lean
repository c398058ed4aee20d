/-!
# Actor paths

The component list of a path. A component is pushed as it is, so the key of a
child's path is the name the child was created under. A path is printed with a
slash before each component, and read back by a parser that splits at slashes
and drops what is blank.
-/

namespace Ruactor

/-- `char::is_whitespace`: the property `White_Space`. -/
def isWhitespace (c : Char) : Bool :=
  c == ' ' || ('\x09' ≤ c && c ≤ '\x0d') || c == '\u0085' || c == '\u00a0' || c == '\u1680' ||
    ('\u2000' ≤ c && c ≤ '\u200a') || c == '\u2028' || c == '\u2029' || c == '\u202f' ||
    c == '\u205f' || c == '\u3000'

def trim (s : String) : String :=
  String.ofList ((s.toList.dropWhile isWhitespace).reverse.dropWhile isWhitespace).reverse

/-- `str::split` at a character. -/
def split (s : String) (c : Char) : List String := (s.toList.splitOn c).map String.ofList

def startsWith (s me : String) : Bool := me.toList.isPrefixOf s.toList

@[ext] structure ActorPath where
  tokens : List String
  deriving DecidableEq, Repr

namespace ActorPath

def isEmpty (p : ActorPath) : Bool := p.tokens.isEmpty

def root (p : ActorPath) : ActorPath :=
  if p.tokens.length = 1 then p
  else if !p.tokens.isEmpty then ⟨p.tokens.take 1⟩
  else ⟨[]⟩

def parent (p : ActorPath) : ActorPath :=
  if p.tokens.length > 1 then ⟨p.tokens.take (p.tokens.length - 1)⟩ else ⟨[]⟩

def key (p : ActorPath) : String := p.tokens.getLast?.getD ""

def level (p : ActorPath) : Nat := p.tokens.length

def isTopLevel (p : ActorPath) : Bool := p.tokens.length == 1

/-- A level outside of the path leaves it whole, level 0 too. -/
def atLevel (p : ActorPath) (level : Nat) : ActorPath :=
  if level < 1 ∨ level ≥ p.level then p
  else if p.isTopLevel then p.root
  else if level = p.level - 1 then p.parent
  else ⟨p.tokens.take level⟩

/-- `Display`. -/
def toString (p : ActorPath) : String :=
  match compare p.level 1 with
  | .lt => "/"
  | .eq => "/" ++ p.tokens[0]?.getD ""
  | .gt => "/" ++ "/".intercalate p.tokens

def isAncestorOf (p other : ActorPath) : Bool :=
  let me := p.toString ++ "/"
  startsWith other.toString me

def isDescendantOf (p other : ActorPath) : Bool :=
  let me := p.toString
  startsWith me (other.toString ++ "/")

def isParentOf (p other : ActorPath) : Bool := decide (p = other.parent)

def isChildOf (p other : ActorPath) : Bool := decide (p.parent = other)

/-- `From<&str>`. -/
def ofString (s : String) : ActorPath :=
  ⟨(split s '/').filter fun x => !(trim x).isEmpty⟩

/-- `Div<&str>` and `Div<String>`: the path of a child. -/
def div (p : ActorPath) (rhs : String) : ActorPath := ⟨p.tokens ++ [rhs]⟩

@[simp] theorem key_div (p : ActorPath) (name : String) : (p.div name).key = name := by
  simp [key, div]

end ActorPath

end Ruactor
