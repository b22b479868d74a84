import Vcx.Token

/-!
# Keywords

`token.Lookup`: the kind of an identifier, by its spelling.
-/

namespace Vcx.Token
set_option autoImplicit false

/-- `Std`. -/
inductive Std
  | cxx23
  | cxx26
  deriving Repr, DecidableEq

/-- The bytes of a text in ASCII. -/
def bytes (text : String) : List UInt8 := text.toList.map (·.toUInt8)

/-- `stdKeywords`, apart from `true` and `false`. -/
def stdKeywords : List String :=
  ["alignas", "alignof", "asm", "auto", "bool", "break", "case", "catch", "char", "char8_t", "char16_t", "char32_t",
    "class", "concept", "const", "consteval", "constexpr", "constinit", "const_cast", "continue", "co_await",
    "co_return", "co_yield", "decltype", "default", "delete", "do", "double", "dynamic_cast", "else", "enum",
    "explicit", "export", "extern", "float", "for", "friend", "goto", "if", "inline", "int", "long", "mutable",
    "namespace", "new", "noexcept", "nullptr", "operator", "private", "protected", "public", "register",
    "reinterpret_cast", "requires", "return", "short", "signed", "sizeof", "static", "static_assert", "static_cast",
    "struct", "switch", "template", "this", "thread_local", "throw", "try", "typedef", "typeid", "typename", "union",
    "unsigned", "using", "virtual", "void", "volatile", "wchar_t", "while"]

/-- `altTokens`. -/
def altTokens : List (String × Kind) :=
  [("and", .land), ("and_eq", .andAssign), ("bitand", .and), ("bitor", .or), ("compl", .tilde), ("not", .not),
    ("not_eq", .neq), ("or", .lor), ("or_eq", .orAssign), ("xor", .xor), ("xor_eq", .xorAssign)]

/-- `extKeywords`. -/
def extKeywords : List String :=
  ["__restrict", "_Nonnull", "__typeof__", "__attribute__", "__declspec", "__uuidof", "__unaligned", "__int128",
    "__int64", "__int32", "__int16", "__int8", "__builtin_bit_cast", "__try", "__except", "__finally", "__leave"]

/-- The spellings of `aliases`. -/
def aliases : List String :=
  ["__alignof", "__alignof__", "__thread", "_Static_assert", "__const", "__volatile", "__volatile__", "__signed",
    "__signed__", "__inline", "__inline__", "__forceinline", "__asm", "__asm__", "__attribute", "__nullptr",
    "_Nonnull", "_Nullable", "_Null_unspecified", "_Nullable_result", "__nonnull", "__nullable",
    "__null_unspecified", "__restrict", "__restrict__", "__typeof", "typeof"]

/-- `cxx26Keywords`. -/
def cxx26Keywords : List String := ["contract_assert"]

/-- The keyword tables as one, with the alternative tokens. -/
def keywords (std : Std) : List (String × Kind) :=
  [("true", .kwTrue), ("false", .kwFalse)] ++ stdKeywords.map (·, .keyword) ++ altTokens ++
    (extKeywords ++ aliases ++ if std = .cxx26 then cxx26Keywords else []).map (·, .keyword)

/-- `Lookup`. -/
def lookup (std : Std) (name : List UInt8) : Kind :=
  (((keywords std).find? fun k => bytes k.1 = name).map (·.2)).getD .ident

/-- `IsAltToken`. -/
def isAltToken (name : List UInt8) : Bool := altTokens.any fun k => bytes k.1 = name

/-- The kinds that no word, number or literal has. -/
def marks : List Kind := [.comment, .hash, .hashhash]

theorem lookup_kind (std : Std) (name : List UInt8) : lookup std name ∉ marks := by
  have word : Kind.keyword ∉ marks := by decide
  have none : ∀ k ∈ keywords std, k.2 ∉ marks := by
    intro k mem
    simp only [keywords, List.mem_append, List.mem_map] at mem
    obtain ((truth | ⟨_, _, rfl⟩) | alt) | ⟨_, _, rfl⟩ := mem
    · revert k
      decide
    · exact word
    · revert k
      decide
    · exact word
  unfold lookup
  cases found : (keywords std).find? fun k => bytes k.1 = name with
  | none => decide
  | some k => exact none k (List.mem_of_find?_eq_some found)

end Vcx.Token
