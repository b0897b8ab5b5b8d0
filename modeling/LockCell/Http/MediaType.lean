/-
  LockCell.Http.MediaType — which content types announce JSON.

  A media type is a type, a slash, a subtype and parameters. It announces JSON if the type
  is `application` and the subtype is `json`, or is what stands before or after its last
  plus sign. Letters count in either case. What is no media type announces nothing.
-/

namespace LockCell.Http

/-- A character of a token. -/
def isToken (c : Char) : Bool :=
  c.isAlphanum || "!#$%&'*+-.^_`|~".toList.contains c

/-- A character between quotes. -/
def isQuotable (c : Char) : Bool := 0x1f < c.toNat && c.toNat != 0x7f

/-- After a closing quote: blanks, then the end or the next parameter. -/
def afterQuote : List Char → Option (List Char)
  | [] => some []
  | ';' :: r => some r
  | ' ' :: r => afterQuote r
  | _ => none

/-- The value of a parameter: a token or a quoted text. -/
def parameterValue (s : List Char) : Option (List Char) :=
  match s with
  | '"' :: c :: r =>
    if isQuotable c then
      match (r.dropWhile fun c => isQuotable c && c != '"') with
      | '"' :: r => afterQuote r
      | _ => none
    else none
  | _ =>
    let r := s.dropWhile isToken
    match r with
    | [] => some []
    | ';' :: r' => if r.length < s.length then some r' else none
    | _ => none

/-- One parameter, blanks before it. -/
def parameter (s : List Char) : Option (List Char) :=
  let s := s.dropWhile (· == ' ')
  if s.isEmpty then some []
  else
    let r := s.dropWhile isToken
    match r with
    | '=' :: r' => if r.length < s.length then parameterValue r' else none
    | _ => none

/-- Parameters to the end; the fuel is the length of the text. -/
def parameters : Nat → List Char → Bool
  | _, [] => true
  | 0, _ => false
  | fuel + 1, s =>
    match parameter s with
    | some r => parameters fuel r
    | none => false

/-- What stands before and after the last plus sign, if one stands inside. -/
def splitPlus (s : List Char) : List Char × Option (List Char) :=
  let suffix := s.reverse.takeWhile (· != '+')
  if suffix.length + 1 < s.length then
    (s.take (s.length - suffix.length - 1), some suffix.reverse)
  else (s, none)

def lower (s : List Char) : String := String.ofList (s.map Char.toLower)

def announcesJson (contentType : String) : Bool :=
  let s := contentType.toList
  let kind := s.takeWhile isToken
  match s.drop kind.length with
  | '/' :: r =>
    let subtype := r.takeWhile isToken
    let good := match r.drop subtype.length with
      | [] => true
      | ';' :: ps => !subtype.isEmpty && parameters (ps.length + 1) ps
      | _ => false
    let (main, suffix) := splitPlus subtype
    good && lower kind == "application" &&
      (lower main == "json" || (suffix.map lower) == some "json")
  | _ => false

end LockCell.Http
