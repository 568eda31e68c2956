import RustScan.Bytes

/-!
# Keywords

The reserved words, each with its spelling in a program and its name in a token listing.
`Keyword.ofWord?` finds the keyword that a word spells.  It leaves out `union`, which is a keyword
only in front of another word: the scanner decides that one when it sees what follows.
-/

set_option autoImplicit false

namespace RustScan

/-- A reserved word. -/
inductive Keyword where
  | as_ | break_ | const_ | continue_ | crate_ | else_ | enum_ | extern_ | false_ | fn_ | for_
  | if_ | impl_ | in_ | let_ | loop_ | match_ | mod_ | move_ | mut_ | pub_ | ref_ | return_
  | selfValue | selfType
  | static_ | struct_ | super_ | trait_ | true_ | type_ | unsafe_ | use_ | where_ | while_
  | async_ | await_ | dyn_
  | abstract_ | become_ | box_ | do_ | final_ | macro_ | override_ | priv_ | typeof_ | unsized_
  | virtual_ | yield_ | try_
  | union_
  deriving DecidableEq

namespace Keyword

/-- All keywords, in the order of their codes. -/
def all : List Keyword :=
  [as_, break_, const_, continue_, crate_, else_, enum_, extern_, false_, fn_, for_,
   if_, impl_, in_, let_, loop_, match_, mod_, move_, mut_, pub_, ref_, return_,
   selfValue, selfType,
   static_, struct_, super_, trait_, true_, type_, unsafe_, use_, where_, while_,
   async_, await_, dyn_,
   abstract_, become_, box_, do_, final_, macro_, override_, priv_, typeof_, unsized_,
   virtual_, yield_, try_,
   union_]

/-- The word itself. -/
def spelling : Keyword → String
  | as_ => "as"
  | break_ => "break"
  | const_ => "const"
  | continue_ => "continue"
  | crate_ => "crate"
  | else_ => "else"
  | enum_ => "enum"
  | extern_ => "extern"
  | false_ => "false"
  | fn_ => "fn"
  | for_ => "for"
  | if_ => "if"
  | impl_ => "impl"
  | in_ => "in"
  | let_ => "let"
  | loop_ => "loop"
  | match_ => "match"
  | mod_ => "mod"
  | move_ => "move"
  | mut_ => "mut"
  | pub_ => "pub"
  | ref_ => "ref"
  | return_ => "return"
  | selfValue => "self"
  | selfType => "Self"
  | static_ => "static"
  | struct_ => "struct"
  | super_ => "super"
  | trait_ => "trait"
  | true_ => "true"
  | type_ => "type"
  | unsafe_ => "unsafe"
  | use_ => "use"
  | where_ => "where"
  | while_ => "while"
  | async_ => "async"
  | await_ => "await"
  | dyn_ => "dyn"
  | abstract_ => "abstract"
  | become_ => "become"
  | box_ => "box"
  | do_ => "do"
  | final_ => "final"
  | macro_ => "macro"
  | override_ => "override"
  | priv_ => "priv"
  | typeof_ => "typeof"
  | unsized_ => "unsized"
  | virtual_ => "virtual"
  | yield_ => "yield"
  | try_ => "try"
  | union_ => "union"

/-- The name in a token listing: the word in capitals, with the two spellings of `self` told
apart. -/
def name : Keyword → String
  | as_ => "AS"
  | break_ => "BREAK"
  | const_ => "CONST"
  | continue_ => "CONTINUE"
  | crate_ => "CRATE"
  | else_ => "ELSE"
  | enum_ => "ENUM"
  | extern_ => "EXTERN"
  | false_ => "FALSE"
  | fn_ => "FN"
  | for_ => "FOR"
  | if_ => "IF"
  | impl_ => "IMPL"
  | in_ => "IN"
  | let_ => "LET"
  | loop_ => "LOOP"
  | match_ => "MATCH"
  | mod_ => "MOD"
  | move_ => "MOVE"
  | mut_ => "MUT"
  | pub_ => "PUB"
  | ref_ => "REF"
  | return_ => "RETURN"
  | selfValue => "SELF_VALUE"
  | selfType => "SELF_TYPE"
  | static_ => "STATIC"
  | struct_ => "STRUCT"
  | super_ => "SUPER"
  | trait_ => "TRAIT"
  | true_ => "TRUE"
  | type_ => "TYPE"
  | unsafe_ => "UNSAFE"
  | use_ => "USE"
  | where_ => "WHERE"
  | while_ => "WHILE"
  | async_ => "ASYNC"
  | await_ => "AWAIT"
  | dyn_ => "DYN"
  | abstract_ => "ABSTRACT"
  | become_ => "BECOME"
  | box_ => "BOX"
  | do_ => "DO"
  | final_ => "FINAL"
  | macro_ => "MACRO"
  | override_ => "OVERRIDE"
  | priv_ => "PRIV"
  | typeof_ => "TYPEOF"
  | unsized_ => "UNSIZED"
  | virtual_ => "VIRTUAL"
  | yield_ => "YIELD"
  | try_ => "TRY"
  | union_ => "UNION"

/-- The keywords that are reserved everywhere, beside their spellings. -/
def table : List (Bytes × Keyword) :=
  (all.filter (· ≠ union_)).map fun k => (ascii k.spelling, k)

/-- The keyword that a word spells in every position. -/
def ofWord? (word : Bytes) : Option Keyword := table.lookup word

end Keyword
end RustScan
