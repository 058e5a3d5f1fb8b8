import ClassListing.Batch
import ClassListing.Json
import ClassListing.Json.Texts

namespace ClassListing

namespace Results

def entryText (name text : String) : String :=
  "== " ++ name ++ " ==\n" ++ text ++ if text.toList.getLast? = some '\n' then "" else "\n"

/-- An empty line stands between two texts. -/
def report (results : Results) : String :=
  if results.isEmpty then "(no classes)\n"
  else "\n".intercalate (results.entries.map fun (name, text) => entryText name text)

def json (results : Results) : Json := .ofTexts results.entries

def ofJson? (text : String) : Option Results :=
  (Json.texts? text).map .ofList

end Results

def Failure.json (failure : Failure) : Json := .ofTexts [("message", failure.message)]

def Registry.json (registry : Registry) : Json :=
  .array (registry.toList.map fun engine =>
    .ofTexts [("name", engine.name), ("description", engine.description)])

def Registry.report (registry : Registry) : String :=
  if registry.toList.isEmpty then "Engines: (none)\n"
  else
    "Engines:\n" ++ String.join (registry.toList.map fun engine =>
      "- " ++ engine.name ++ ": " ++ engine.description ++ "\n")

end ClassListing
