import PeExchange.Common
import PeExchange.Lib.Lines

/-!
# The product file (pe_setup.c)

`get_num_products` and `get_products`, and what `main` makes of them. Both open
the file anew and see the same text, which has no NUL byte.

`fgets` hands out the text in pieces of at most `MAX_LINE - 1` characters; the
piece behind the last one is its `NULL`. `valid_products` is the record of the
copies into it: an index may be one that `main` did not allocate.
-/

namespace PeExchange

open CFormat Lines

/-- A text file. -/
structure TextFile where
  chars : List Char
  nul_free : '\x00' ∉ chars

/-- What `fgets(line, MAX_LINE, product_fp)` returns, call after call. -/
def TextFile.reads (f : TextFile) : List (List Char) :=
  Lines.reads '\n' (maxLine - 1) f.chars

/-- `is_alphanumeric` (pe_setup.c:10–17) of a string that is not empty: its last
character is not looked at. -/
def isAlphanumeric (line : List Char) : Bool :=
  line.dropLast.all Char.isAlphanum

/-- `is_num` (pe_setup.c:20–27) of a string that is not empty: its last character
is not looked at. -/
def isNum (str : List Char) : Bool :=
  str.dropLast.all Char.isDigit

/-- `atoi`: 0 when the string does not begin with a number. -/
def atoi (str : List Char) : Int :=
  match scanNumeral (skipSpace str) with
  | some (n, _) => n.value
  | none => 0

/-- `get_num_products` (pe_setup.c:292–310): the value returned and what is
printed. `none` is a file that does not open. -/
def getNumProducts : Option TextFile → Except Fault (Int × List Char)
  | none => .ok (-1, "Error opening file\n".toList)
  | some f =>
    match f.reads with
    -- the result of `fgets` is not looked at, and `line` is not set
    | [] => .error .uninitialised
    | line :: _ =>
      if isNum line = false then .ok (-1, "Invalid number of products\n".toList)
      else .ok (atoi line, [])

/-- What `get_products` returns, prints, and copies: the index in `valid_products`
and the string, for each `strcpy`. -/
structure ProductsRead where
  ret : Int
  printed : List Char
  copied : List (Nat × List Char)
deriving DecidableEq, Repr

/-- The loop of `get_products` and what follows it (pe_setup.c:325–355), on the
lines still to be read. -/
def getProductsLoop (numProducts : Int) (copied : List (Nat × List Char)) (prodCounter : Nat) :
    List (List Char) → ProductsRead
  | [] =>
    if prodCounter < numProducts then
      ⟨1, "Not enough products for number given\n".toList, copied⟩
    else ⟨0, [], copied⟩
  | line :: rest =>
    if maxProd < line.length then ⟨1, "Product name too long\n".toList, copied⟩
    else if isAlphanumeric line = false then ⟨1, "Invalid product name\n".toList, copied⟩
    -- the line is copied without its last character before the count is checked
    else if numProducts < (prodCounter + 1 : Nat) then
      ⟨1, "Too many products for number given\n".toList, copied ++ [(prodCounter, line.dropLast)]⟩
    else
      getProductsLoop numProducts (copied ++ [(prodCounter, line.dropLast)]) (prodCounter + 1) rest

/-- `get_products` (pe_setup.c:313–356). The first line is read and not used. -/
def getProducts (file : Option TextFile) (numProducts : Int) : ProductsRead :=
  match file with
  | none => ⟨1, "Error opening file\n".toList, []⟩
  | some f => getProductsLoop numProducts [] 0 f.reads.tail

/-- `valid_products` after the copies; `calloc` filled it with empty strings. -/
def validProducts (copied : List (Nat × List Char)) : Nat → List Char :=
  copied.foldl (fun valid c => Function.update valid c.1 c.2) fun _ => []

/-- What `main` does first (pe_exchange.c:88–97): the number of products and their
names, or nothing when it returns. -/
def readProducts (file : Option TextFile) : Except Fault (Option (Int × (Nat → List Char))) := do
  let (numProducts, _) ← getNumProducts file
  if numProducts = -1 then return none
  else if (getProducts file numProducts).ret ≠ 0 then return none
  else return some (numProducts, validProducts (getProducts file numProducts).copied)

end PeExchange
