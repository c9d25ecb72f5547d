import Omdrop.Plist.SafePlist

namespace Omdrop.Plist

open Omdrop.Text Omdrop.Nested

/-!
# Property lists in debug dumps

`redacted` is what a dump shows of a request body: a property list with its certificates and
records replaced by their sizes, and of anything else the size only.  `redacted_alike` says that
two bodies that differ in nothing else are shown alike.
-/

/-- Is what stands under this key not to be shown? -/
def isSecret (key : Text) : Bool :=
  "RecordData".toList.isSuffixOf key || "Certificate".toList.isSuffixOf key

/-- The bytes of data or text, the elements of an array or dictionary. -/
def Value.size : Value → Option Nat
  | .data d       => some d.length
  | .string s     => some (utf8 s).length
  | .array a      => some a.length
  | .dictionary d => some d.length
  | _             => none

/-- What is shown in the place of `n` bytes. -/
def redactedText (n : Nat) : Text := "<redacted ".toList ++ decimal n ++ " bytes>".toList

mutual

/-- A value with its secrets replaced by their sizes, at any depth. -/
def redact : Value → Value
  | .dictionary dict => .dictionary (redactDict dict)
  | .array items     => .array (redactItems items)
  | other            => other

/-- The items of an array, each with its secrets replaced. -/
def redactItems : List Value → List Value
  | []         => []
  | v :: items => redact v :: redactItems items

/-- The entries of a dictionary: a secret with a size is replaced whole. -/
def redactDict : List (Text × Value) → List (Text × Value)
  | []                  => []
  | (key, item) :: dict =>
    match isSecret key, item.size with
    | true, some n => (key, .string (redactedText n)) :: redactDict dict
    | _, _         => (key, redact item) :: redactDict dict

end

/-- The size of a body, for one that cannot be shown. -/
def sizeShown (data : List UInt8) : List UInt8 :=
  utf8 ("<opaque ".toList ++ decimal data.length ++ " bytes>".toList)

/-- What is shown of a body; `toXml` writes a property list, or fails to. -/
def redacted (R : EventReader) (toXml : Value → Except Text (List UInt8)) (data : List UInt8) :
    List UInt8 :=
  match parse R data with
  | .error _  => sizeShown data
  | .ok value =>
    match toXml (redact value) with
    | .ok out  => out
    | .error _ => sizeShown data

/-! ### What does not show -/

mutual

/-- Values that differ in secrets of the same size only. -/
inductive Alike : Value → Value → Prop
  | same (v) : Alike v v
  | array {items items'} : AlikeItems items items' → Alike (.array items) (.array items')
  | dictionary {dict dict'} : AlikeDict dict dict' → Alike (.dictionary dict) (.dictionary dict')

/-- Items that differ in secrets only, one by one. -/
inductive AlikeItems : List Value → List Value → Prop
  | nil : AlikeItems [] []
  | cons {v v' items items'} : Alike v v' → AlikeItems items items' →
      AlikeItems (v :: items) (v' :: items')

/-- Entries under the same keys that differ in secrets only, or are secrets of the same size. -/
inductive AlikeDict : List (Text × Value) → List (Text × Value) → Prop
  | nil : AlikeDict [] []
  | entry {k v v' dict dict'} : Alike v v' → AlikeDict dict dict' →
      AlikeDict ((k, v) :: dict) ((k, v') :: dict')
  | secret {k v v' n dict dict'} : isSecret k = true → v.size = some n → v'.size = some n →
      AlikeDict dict dict' → AlikeDict ((k, v) :: dict) ((k, v') :: dict')

end

/-- Lists that are alike are of one length. -/
theorem AlikeItems.length_eq {items items' : List Value} :
    AlikeItems items items' → items.length = items'.length
  | .nil         => rfl
  | .cons _ hall => congrArg Nat.succ hall.length_eq

/-- Dictionaries that are alike are of one length. -/
theorem AlikeDict.length_eq {dict dict' : List (Text × Value)} :
    AlikeDict dict dict' → dict.length = dict'.length
  | .nil               => rfl
  | .entry _ hall      => congrArg Nat.succ hall.length_eq
  | .secret _ _ _ hall => congrArg Nat.succ hall.length_eq

/-- Values that are alike have the same size, when they have one. -/
theorem Alike.size_eq {v v' : Value} : Alike v v' → v.size = v'.size
  | .same _           => rfl
  | .array hitems     => congrArg some hitems.length_eq
  | .dictionary hdict => congrArg some hdict.length_eq

/-! Redaction leaves nothing of the difference, case by case of how the values are alike. -/

mutual

/-- Values that are alike are redacted to the same. -/
theorem Alike.redact_eq {v v' : Value} : Alike v v' → redact v = redact v'
  | .same _           => rfl
  | .array hitems     => congrArg Value.array hitems.redact_eq
  | .dictionary hdict => congrArg Value.dictionary hdict.redact_eq

/-- Lists that are alike are redacted to the same. -/
theorem AlikeItems.redact_eq {items items' : List Value} :
    AlikeItems items items' → redactItems items = redactItems items'
  | .nil          => rfl
  | .cons hv hall => congrArg₂ List.cons hv.redact_eq hall.redact_eq

/-- Dictionaries that are alike are redacted to the same. -/
theorem AlikeDict.redact_eq {dict dict' : List (Text × Value)} :
    AlikeDict dict dict' → redactDict dict = redactDict dict'
  | .nil => rfl
  | .entry hv hall => by
    rw [redactDict, redactDict, hv.size_eq, hv.redact_eq, hall.redact_eq]
  | .secret hk hn hn' hall => by
    rw [redactDict, redactDict, hk, hn, hn', hall.redact_eq]

end

variable {R : EventReader} {toXml : Value → Except Text (List UInt8)} {data data' : List UInt8}

/-- A body that parses is shown redacted, or as its size. -/
theorem redacted_of_ok {v : Value} (h : parse R data = .ok v) :
    redacted R toXml data =
      match toXml (redact v) with
      | .ok out  => out
      | .error _ => sizeShown data := by
  unfold redacted
  rw [h]

/-- A body that does not is shown as its size. -/
theorem redacted_of_refused (h : ∀ v, parse R data ≠ .ok v) :
    redacted R toXml data = sizeShown data := by
  unfold redacted
  split
  · rfl
  · rename_i v hv
    exact absurd hv (h v)

/-- The size shown depends on the size. -/
theorem sizeShown_eq (hlen : data.length = data'.length) : sizeShown data = sizeShown data' := by
  unfold sizeShown
  rw [hlen]

/-- **Nothing of a secret shows.**  Bodies of the same length are shown alike when they are
    property lists that differ in secrets only, and when neither is one. -/
theorem redacted_eq (R : EventReader) (toXml : Value → Except Text (List UInt8))
    {data data' : List UInt8} (hlen : data.length = data'.length) :
    (∀ v v', parse R data = .ok v → parse R data' = .ok v' → Alike v v' →
      redacted R toXml data = redacted R toXml data') ∧
    ((∀ v, parse R data ≠ .ok v) → (∀ v, parse R data' ≠ .ok v) →
      redacted R toXml data = redacted R toXml data') := by
  constructor
  · intro v v' hv hv' halike
    rw [redacted_of_ok hv, redacted_of_ok hv', halike.redact_eq, sizeShown_eq hlen]
  · intro h h'
    rw [redacted_of_refused h, redacted_of_refused h', sizeShown_eq hlen]

/-- A property list with a record in it, in base 64. -/
def recordList (record : Text) : List UInt8 :=
  utf8 ("<plist><dict><key>SenderRecordData</key><data>".toList ++ record ++
    "</data></dict></plist>".toList)

/-- The value of such a list. -/
def recordValue (bytes : List UInt8) : Value :=
  .dictionary [("SenderRecordData".toList, .data bytes)]

/-- The events of such a list. -/
def recordEvents (data : List UInt8) : List Event :=
  let bytes :=
    if data = recordList "AQ==" then [1] else if data = recordList "Ag==" then [2] else []
  [.startDictionary none, .string "SenderRecordData", .data bytes, .endCollection]

/-- A reader that knows two such lists. -/
def recordReader : EventReader where
  State := List Event
  new := recordEvents
  next
    | []      => none
    | e :: es => some (.ok e, es)

/-- How the XML form begins. -/
def prologue : Text :=
  "<?xml version=\"1.0\" encoding=\"UTF-8\"?>\n".toList ++
  "<!DOCTYPE plist PUBLIC \"-//Apple//DTD PLIST 1.0//EN\" ".toList ++
  "\"http://www.apple.com/DTDs/PropertyList-1.0.dtd\">\n<plist version=\"1.0\">\n".toList

/-- A character as XML shows it. -/
def xmlChar (c : Char) : Text :=
  if c = '<' then "&lt;".toList else if c = '>' then "&gt;".toList else [c]

/-- A writer that knows dictionaries with one text. -/
def recordWriter : Value → Except Text (List UInt8)
  | .dictionary [(key, .string text)] =>
    .ok (utf8 (prologue ++ "<dict>\n\t<key>".toList ++ key ++ "</key>\n\t<string>".toList ++
      text.flatMap xmlChar ++ "</string>\n</dict>\n</plist>".toList))
  | _ => .error "not a dictionary with one text"

/-- Two records of one length are shown alike. -/
theorem redacted_record :
    redacted recordReader recordWriter (recordList "AQ==") =
      redacted recordReader recordWriter (recordList "Ag==") := by
  have hlen : byteBudget (recordList "AQ==").length = minByteBudget ∧
      byteBudget (recordList "Ag==").length = minByteBudget := by decide +kernel
  have hone : recordEvents (recordList "AQ==") =
      [.startDictionary none, .string "SenderRecordData", .data [1], .endCollection] := by
    decide +kernel
  have htwo : recordEvents (recordList "Ag==") =
      [.startDictionary none, .string "SenderRecordData", .data [2], .endCollection] := by
    decide +kernel
  refine (redacted_eq recordReader recordWriter (by decide +kernel)).1 (recordValue [1])
    (recordValue [2]) ?_ ?_ (.dictionary (.secret (by decide) rfl rfl .nil))
  · show (parseFrom recordReader _ _ (recordEvents _) .start).2 = _
    rw [hlen.1, hone, maxEvents]
    rfl
  · show (parseFrom recordReader _ _ (recordEvents _) .start).2 = _
    rw [hlen.2, htwo, maxEvents]
    rfl

end Omdrop.Plist
