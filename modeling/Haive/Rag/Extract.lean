import Haive.Rag.BlockRanges
import Haive.Rag.JsRanges
import Haive.Rag.Markdown
import Haive.Rag.PhpRanges

/-!
# Sections of any file

`extractCodeSections` of `_rag-chunkers.ts`: the extension names the reader, its ranges become sections. With
`extractMarkdownSections`, what every producer of the index starts from; `extractSections_unique` is what their
keys rest on.
-/

namespace Haive.Rag

open Lib.Units

inductive CodeLanguage
  | php
  | javascript
  | typescript
  | tsx
  | python
  | go
  | rust
  | ruby
  | java
  deriving DecidableEq

def CODE_EXTENSIONS : List (Text × CodeLanguage) :=
  [(units ".php", .php), (units ".inc", .php), (units ".module", .php), (units ".install", .php),
    (units ".theme", .php), (units ".profile", .php), (units ".js", .javascript), (units ".mjs", .javascript),
    (units ".cjs", .javascript), (units ".ts", .typescript), (units ".tsx", .tsx), (units ".jsx", .javascript),
    (units ".vue", .javascript), (units ".svelte", .javascript), (units ".py", .python), (units ".pyi", .python),
    (units ".go", .go), (units ".rs", .rust), (units ".rb", .ruby), (units ".java", .java)]

def JSX_EXTENSIONS : List Text := names [".js", ".mjs", ".cjs", ".jsx", ".tsx"]

/-- `path.extname`: of the last component from its last dot on, unless that is its first character. -/
def extname (filePath : Text) : Text :=
  let base := (filePath.rdropWhile (· = ch '/')).rtakeWhile (· ≠ ch '/')
  let stem := base.rdropWhile (· ≠ ch '.')
  if stem.length ≤ 1 || base = units ".." then [] else base.drop (stem.length - 1)

section

variable (U : Unicode)

/-- The `switch` of `extractCodeSections`; `none` is a `TypeError`. -/
def codeRanges (content ext : Text) : Option (List SectionRange) :=
  match CODE_EXTENSIONS.lookup ext with
  | some .php => some (phpRanges U content)
  | some .python => some (pythonRanges U content)
  | some .ruby => rubyRanges U content
  | some .go => some (goRanges U content)
  | some .rust => some (rustRanges U content)
  | some lang =>
    let flavour :=
      if ext = units ".js" || ext = units ".cjs" then .script else if ext = units ".mjs" then .module else .js
    let jsx := if ext = units ".tsx" then .tsx else if JSX_EXTENSIONS.elem ext then .on else .off
    some (jsRanges U content (lang ≠ .java) flavour jsx)
  | none => some []

variable (holdsWord : Text → Bool)

def extractCodeSections (content filePath : Text) : Option (List RagSection) :=
  (codeRanges U content ((extname filePath).flatMap lowerUnit)).map (assembleSections holdsWord content)

inductive FileKind
  | kb
  | code
  deriving DecidableEq

/-- What the producers of the index take of a file. -/
def extractSections (kind : FileKind) (content filePath : Text) : Option (List RagSection) :=
  match kind with
  | .code => extractCodeSections U holdsWord content filePath
  | .kb => some (extractMarkdownSections content)

end

/-! ## Ids -/

theorem codeRanges_plain (U : Unicode) (content ext : Text) :
    ∃ ranges, codeRanges U content ext = some ranges ∧ PlainRanges ranges := by
  rw [codeRanges.eq_def]
  split
  · exact ⟨_, rfl, phpRanges_plain U content⟩
  · exact ⟨_, rfl, pythonRanges_plain U content⟩
  · exact rubyRanges_plain U content
  · exact ⟨_, rfl, goRanges_plain U content⟩
  · exact ⟨_, rfl, rustRanges_plain U content⟩
  · exact ⟨_, rfl, jsRanges_plain U content _ _ _⟩
  · exact ⟨[], rfl, fun r hr => absurd hr List.not_mem_nil⟩

theorem extractSections_unique (U : Unicode) (holdsWord : Text → Bool) (kind : FileKind) (content filePath : Text) :
    ∃ sections, extractSections U holdsWord kind content filePath = some sections ∧
      UniqueIds (sectionIds sections) := by
  cases kind with
  | kb => exact ⟨_, rfl, extractMarkdownSections_unique content⟩
  | code =>
    obtain ⟨ranges, hranges, hplain⟩ := codeRanges_plain U content ((extname filePath).flatMap lowerUnit)
    exact ⟨_, congrArg (Option.map _) hranges, assembleSections_unique hplain⟩

end Haive.Rag
