import OpenViking.Fs.Access

/-!
# Wiki schemas

The texts, documents and cards of the wiki pipeline (`wiki/schemas.py`), and where its files are
(`wiki/uri.py`).  A value of a pydantic model is checked when it is built, so that the models are
structures whose texts carry their checks.

* `requireText_val`: a checked text passes the check unchanged.
-/

namespace OpenViking.Wiki

open Fs Memory

/-! ## Texts -/

/-- `NonEmptyStr`: a text without blanks at its ends. -/
structure Text where
  val : Str
  strip_val : strip val = val
  ne_nil : val ≠ []
  deriving DecidableEq

theorem strip_strip (t : Str) : strip (strip t) = strip t := by
  cases hstrip : strip t with
  | nil => rfl
  | cons c body =>
    have hpre : c :: body <+: t.dropWhile isSpace := by
      rw [← hstrip]
      exact List.rdropWhile_prefix ..
    refine strip_of_ends ?_ fun d hd => ?_
    · -- the first character was the first that is no blank
      obtain ⟨rest, hrest⟩ := hpre
      have hhead := List.head?_dropWhile_not isSpace t
      rw [← hrest] at hhead
      exact hhead
    · have hne : (t.dropWhile isSpace).rdropWhile isSpace ≠ [] := by
        rw [← strip, hstrip]
        exact List.cons_ne_nil _ _
      have hlast := List.rdropWhile_last_not isSpace (t.dropWhile isSpace) hne
      have hd' : (strip t).getLast? = some d := hstrip ▸ hd
      rw [strip, List.getLast?_eq_some_getLast hne] at hd'
      rw [← Option.some.inj hd']
      exact Bool.not_eq_true _ ▸ hlast

/-- `_require_text` (13-16). -/
def requireText (value : Str) : Option Text :=
  if h : strip value ≠ [] then some ⟨strip value, strip_strip value, h⟩ else none

theorem requireText_val (t : Text) : requireText t.val = some t := by
  have hne : strip t.val ≠ [] := by
    rw [t.strip_val]
    exact t.ne_nil
  rw [requireText, dif_pos hne]
  congr 1
  cases t with
  | mk val strip_val ne_nil =>
    congr 1

theorem val_of_requireText {value : Str} {t : Text} (h : requireText value = some t) :
    t.val = strip value := by
  rw [requireText] at h
  split_ifs at h
  rw [← Option.some.inj h]

/-- `viking://resources/`. -/
def resourcesPrefix : Str := "viking://resources/".toList

/-- `viking://wiki/`. -/
def wikiPrefix : Str := "viking://wiki/".toList

/-- `ResourceUri`. -/
structure ResourceUri extends Text where
  resource : resourcesPrefix <+: val
  deriving DecidableEq

/-- `SourceUri`. -/
structure SourceUri extends Text where
  source : resourcesPrefix <+: val ∨ wikiPrefix <+: val
  deriving DecidableEq

/-- `_require_resource_uri` (26-30). -/
def requireResourceUri (value : Str) : Option ResourceUri :=
  (requireText value).bind fun t => if h : resourcesPrefix <+: t.val then some ⟨t, h⟩ else none

/-! ## Documents and cards -/

/-- `ResourceDocument`, with the content that the prompt of a card is built from. -/
structure ResourceDocument where
  docId : Text
  resourceUri : SourceUri
  title : Text
  contentOrStructure : Str
  deriving DecidableEq

/-- `DocumentCard`. -/
structure DocumentCard where
  docId : Text
  resourceUri : SourceUri
  title : Text
  summary : Text
  importantTerms : List Str
  candidateTopics : List Str
  candidateTopics_ne_nil : candidateTopics ≠ []
  deriving DecidableEq

/-- `DocumentCardManifestEntry`. -/
structure ManifestEntry where
  docId : Text
  resourceUri : ResourceUri
  title : Text
  promptHash : Str
  cardHash : Str
  cardJsonUri : Text
  deriving DecidableEq

/-- `DocumentCardManifest`. -/
structure Manifest where
  version : ℕ
  pipelineVersion : Text
  promptVersion : Str
  schemaHash : Str
  cardInputMode : String
  maxCardInputChars : ℤ
  resourceUris : List ResourceUri
  entries : List ManifestEntry
  deriving DecidableEq

/-! ## URIs -/

/-- The part of `WikiConfig` that the files depend on; the service checks the root. -/
structure WikiConfig where
  pipelineVersion : Str
  wikiRootUri : Str
  isWiki : wikiPrefix <+: wikiRootUri

/-- `_slash`. -/
def slash (uri : Str) : Str := if ['/'] <:+ uri then uri else uri ++ ['/']

def wikiRoot (config : WikiConfig) : Str := slash config.wikiRootUri

def cardsDir (config : WikiConfig) : Str := wikiRoot config ++ "cards/".toList

def cardJsonUri (config : WikiConfig) (docId : Str) : Str :=
  cardsDir config ++ docId ++ ".card.json".toList

def cardManifestUri (config : WikiConfig) : Str := cardsDir config ++ "manifest.json".toList

end OpenViking.Wiki
