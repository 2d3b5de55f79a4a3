import IncrementalLR.Package.Names
import IncrementalLR.Table.Listing

/-!
# The module of a package

The source text, in Rust, of a module that embeds a stored table and declares enumerations for its
symbols and fields. The listing of the table heads it as a block comment. Block comments nest, so the
delimiters of comments inside the listing are broken up.
-/

namespace IncrementalLR.Package

/-- Puts a blank between `a` and `b` wherever one follows the other, from left to right. -/
def spaceOut (a b : Char) : List Char → List Char
  | x :: y :: rest =>
    if x = a ∧ y = b then x :: ' ' :: y :: spaceOut a b rest else x :: spaceOut a b (y :: rest)
  | rest => rest

/-- A text without delimiters of comments. -/
def withoutDelimiters (text : String) : String :=
  String.ofList (spaceOut '*' '/' (spaceOut '/' '*' text.toList))

/-- Lines, each with its end. -/
def unlines (lines : List String) : String := lines.foldl (fun out line => out ++ line ++ "\n") ""

/-- The lines of an enumeration with its conversions from and to numbers. -/
def enumeration (name doc : String) (variants : List Variant) : List String :=
  ["/// " ++ doc,
    "#[derive(Clone, Copy, Debug, PartialEq, Eq, PartialOrd, Ord, Hash)]",
    "#[repr(u16)]",
    "pub enum " ++ name ++ " \x7b"] ++
  (variants.map fun v =>
    "    " ++ v.name ++ " = " ++ toString v.number ++ ", // " ++ Text.quoted v.label) ++
  ["\x7d",
    "",
    "impl From<" ++ name ++ "> for u16 \x7b",
    "    fn from(value: " ++ name ++ ") -> u16 \x7b",
    "        value as u16",
    "    \x7d",
    "\x7d",
    "",
    "impl TryFrom<u16> for " ++ name ++ " \x7b",
    "    type Error = u16;",
    "",
    "    fn try_from(value: u16) -> Result<Self, u16> \x7b",
    "        match value \x7b"] ++
  (variants.map fun v =>
    "            " ++ toString v.number ++ " => Ok(" ++ name ++ "::" ++ v.name ++ "),") ++
  ["            other => Err(other),",
    "        \x7d",
    "    \x7d",
    "\x7d",
    ""]

/-- The comment at the head of a module as far as the listing. -/
def beforeListing (t : Table) : String :=
  "/*\nProduced by lrtree-gen from grammar " ++ t.name ++ "\n" ++
    "Copyright (c) 2005-2025 IKH Software, Inc. <support@ikhsoftware.com>\n\n"

/-- The listing of a table as it stands in a comment. -/
def listingText (t : Table) : String := withoutDelimiters (unlines (Table.Listing.all t))

/-- The comment at the head of a module, from its first delimiter to its last. -/
def headComment (t : Table) : String := beforeListing t ++ listingText t ++ "*/"

/-- What follows the comment at the head. -/
def moduleBody (t : Table) (tableFile : String) : String :=
  let fields := fieldVariants t
  unlines <|
    ["",
      "",
      "use lrtree::\x7bGrammarError, Language\x7d;",
      "",
      "pub const SYMBOL_COUNT: usize = " ++ toString t.symbolCount ++ ";",
      "pub const FIELD_COUNT: usize = " ++ toString t.fields.size ++ ";",
      "pub const STATE_COUNT: usize = " ++ toString t.stateCount ++ ";",
      "",
      "pub static TABLE: &[u8] = include_bytes!(" ++ Text.quoted tableFile ++ ");",
      ""] ++
    enumeration "Kind" "Node kinds of the grammar's symbols." (kindVariants t) ++
    (if fields.isEmpty then [] else enumeration "Field" "Field names of the grammar." fields) ++
    ["/// Decodes the embedded parse table.",
      "pub fn language() -> Result<Language, GrammarError> \x7b",
      "    Language::from_bytes(TABLE)",
      "\x7d"]

/-- The module for a table that is stored in a file beside it. -/
def moduleText (t : Table) (tableFile : String) : String := headComment t ++ moduleBody t tableFile

end IncrementalLR.Package
