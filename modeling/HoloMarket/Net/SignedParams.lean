import HoloMarket.Lib.JsonText
import HoloMarket.Net.WireQuantity
import Mathlib.Data.List.Sort

/-!
# The signature of a request

`build_order_msg` and `cancel_order` write a request twice: as the text that is
signed and as the `params` of the JSON message.  The exchange rebuilds the first
from the second, with the fields sorted by key, and the two are the same for
every combination of the optional fields.
-/

namespace HoloMarket

open JsonText

/-! ## The texts -/

/-- `hmac_sha256_hex`, with the digest of the library as a parameter. -/
def hmacSha256Hex (hmac : String → String → List UInt8) (secret msg : String) : String :=
  String.ofList ((hmac secret msg).flatMap fun b =>
    [Nat.digitChar (b.toNat / 16), Nat.digitChar (b.toNat % 16)])

/-- What `build_order_msg` writes: its text arguments, and the texts of the
quantity and, if the price is positive, of the price. -/
structure OrderTexts where
  cid : String
  sym : String
  side : String
  type : String
  qStr : String
  pStr : Option String
  tif : String

namespace OrderTexts

def payload (t : OrderTexts) (apiKey : String) (ts : Int) : String :=
  "apiKey=" ++ apiKey ++ "&newClientOrderId=" ++ t.cid ++
    (t.pStr.elim "" fun pStr => "&price=" ++ pStr) ++
    "&quantity=" ++ t.qStr ++ "&side=" ++ t.side ++ "&symbol=" ++ t.sym ++
    (if t.tif = "" then "" else "&timeInForce=" ++ t.tif) ++
    "&timestamp=" ++ toString ts ++ "&type=" ++ t.type

def json (t : OrderTexts) (sign : String → String) (apiKey : String) (ts : Int) (id : Nat) :
    String :=
  "\x7b\"id\":\"" ++ toString id ++ "\",\"method\":\"order.place\",\"params\":\x7b" ++
    "\"apiKey\":\"" ++ apiKey ++ "\",\"newClientOrderId\":\"" ++ t.cid ++ "\"," ++
    (t.pStr.elim "" fun pStr => "\"price\":\"" ++ pStr ++ "\",") ++
    ("\"quantity\":\"" ++ t.qStr ++ "\",") ++
    ("\"side\":\"" ++ t.side ++ "\",\"symbol\":\"" ++ t.sym ++ "\"," ++
      (if t.tif = "" then "" else "\"timeInForce\":\"" ++ t.tif ++ "\",") ++
      "\"timestamp\":" ++ toString ts ++ ",\"type\":\"" ++ t.type ++
      "\",\"signature\":\"" ++ sign (t.payload apiKey ts) ++ "\"\x7d\x7d")

end OrderTexts

section Requests

variable {K : Type*} [Field K] [LinearOrder K] [FloorSemiring K]

def OrderRequest.texts (o : OrderRequest K) : OrderTexts where
  cid := o.cid
  sym := o.sym
  side := o.sideText
  type := o.type
  qStr := o.quantityText
  pStr := if 0 < o.price then some o.priceText else none
  tif := o.tif

theorem OrderRequest.payload_texts (o : OrderRequest K) (apiKey : String) (ts : Int) :
    o.texts.payload apiKey ts = o.payload apiKey ts := by
  unfold OrderTexts.payload OrderRequest.payload OrderRequest.texts
  by_cases hp : 0 < o.price
  · simp only [if_pos hp, Option.elim_some]
  · simp only [if_neg hp, Option.elim_none]

theorem OrderRequest.json_texts (o : OrderRequest K) (sign : String → String) (apiKey : String)
    (ts : Int) (id : Nat) :
    o.texts.json sign apiKey ts id = o.buildOrderMsg sign apiKey ts id := by
  unfold OrderTexts.json OrderRequest.buildOrderMsg
  rw [o.payload_texts]
  unfold OrderRequest.texts
  by_cases hp : 0 < o.price
  · simp only [if_pos hp, Option.elim_some]
  · simp only [if_neg hp, Option.elim_none]

end Requests

/-- The text that `cancel_order` signs. -/
def cancelPayload (apiKey sym cid : String) (ts : Int) : String :=
  "apiKey=" ++ apiKey ++ "&origClientOrderId=" ++ cid ++
    "&symbol=" ++ sym ++ "&timestamp=" ++ toString ts

/-- The message of `cancel_order`. -/
def cancelMsg (sign : String → String) (apiKey sym cid : String) (ts : Int) (id : Nat) : String :=
  "\x7b\"id\":\"" ++ toString id ++ "\",\"method\":\"order.cancel\",\"params\":\x7b" ++
    "\"apiKey\":\"" ++ apiKey ++ "\",\"origClientOrderId\":\"" ++ cid ++
    "\",\"symbol\":\"" ++ sym ++ "\",\"timestamp\":" ++ toString ts ++
    ",\"signature\":\"" ++ sign (cancelPayload apiKey sym cid ts) ++ "\"\x7d\x7d"

/-! ## What the exchange rebuilds -/

/-- The bytes of a key, in UTF-8. -/
def keyBytes (k : List Char) : List UInt8 := k.flatMap String.utf8EncodeChar

def ByKey (a b : List Char × Scalar) : Prop := keyBytes a.1 ≤ keyBytes b.1

instance : DecidableRel ByKey :=
  fun a b => inferInstanceAs (Decidable (keyBytes a.1 ≤ keyBytes b.1))

def field (m : List Char × Scalar) : List Char := m.1 ++ '=' :: m.2.content

/-- `key=value` of all fields but the signature, sorted by the bytes of the key
and joined with `&`. -/
def signedText (params : List (List Char × Scalar)) : List Char :=
  ['&'].intercalate (((params.filter fun m => m.1 ≠ "signature".toList).insertionSort ByKey).map
    field)

/-- The message is an object whose `params` say `payload` and carry its
signature. -/
def Covered (sign : String → String) (msg payload : String) : Prop :=
  ∃ message params, readMessage msg.toList = some message ∧
    message.lookup "params".toList = some (.object params) ∧
    signedText params = payload.toList ∧
    params.lookup "signature".toList = some (.str (sign payload).toList)

/-! ## The fields of the two requests -/

def strField (key : String) (v : String) : List Char × Scalar := (key.toList, .str v.toList)

def tsField (ts : Int) : List Char × Scalar := ("timestamp".toList, .num (toString ts).toList)

/-- The message with the given fields and their signature. -/
def message (id : Nat) (method : String) (fields : List (List Char × Scalar)) (sig : String) :
    List (List Char × Value) :=
  [("id".toList, .scalar (.str (toString id).toList)),
    ("method".toList, .scalar (.str method.toList)),
    ("params".toList, .object (fields ++ [strField "signature" sig]))]

def OrderTexts.fields (t : OrderTexts) (apiKey : String) (ts : Int) :
    List (List Char × Scalar) :=
  [strField "apiKey" apiKey, strField "newClientOrderId" t.cid] ++
    (t.pStr.elim [] fun pStr => [strField "price" pStr]) ++
    [strField "quantity" t.qStr, strField "side" t.side, strField "symbol" t.sym] ++
    (if t.tif = "" then [] else [strField "timeInForce" t.tif]) ++
    [tsField ts, strField "type" t.type]

def cancelFields (apiKey sym cid : String) (ts : Int) : List (List Char × Scalar) :=
  [strField "apiKey" apiKey, strField "origClientOrderId" cid, strField "symbol" sym, tsField ts]

theorem OrderTexts.toList_json (t : OrderTexts) (sign : String → String) (apiKey : String)
    (ts : Int) (id : Nat) : (t.json sign apiKey ts id).toList =
      objectText Value.text (message id "order.place" (t.fields apiKey ts)
        (sign (t.payload apiKey ts))) := by
  unfold json message fields strField tsField
  cases hp : t.pStr <;> by_cases ht : t.tif = "" <;>
    simp [ht, objectText, membersText, memberText, quoted, Value.text, Scalar.text]

theorem OrderTexts.toList_payload (t : OrderTexts) (apiKey : String) (ts : Int) :
    (t.payload apiKey ts).toList = ['&'].intercalate ((t.fields apiKey ts).map field) := by
  unfold payload fields strField tsField
  cases hp : t.pStr <;> by_cases ht : t.tif = "" <;> simp [ht, field, Scalar.content]

theorem toList_cancelMsg (sign : String → String) (apiKey sym cid : String) (ts : Int) (id : Nat) :
    (cancelMsg sign apiKey sym cid ts id).toList =
      objectText Value.text (message id "order.cancel" (cancelFields apiKey sym cid ts)
        (sign (cancelPayload apiKey sym cid ts))) := by
  unfold cancelMsg message cancelFields strField tsField
  simp [objectText, membersText, memberText, quoted, Value.text, Scalar.text]

theorem toList_cancelPayload (apiKey sym cid : String) (ts : Int) :
    (cancelPayload apiKey sym cid ts).toList =
      ['&'].intercalate ((cancelFields apiKey sym cid ts).map field) := by
  unfold cancelPayload cancelFields strField tsField
  simp [field, Scalar.content]

/-- The keys are in the order of their bytes and none is that of the signature. -/
structure KeysSorted (fields : List (List Char × Scalar)) : Prop where
  sorted : (fields.map Prod.fst).Pairwise fun k l => keyBytes k ≤ keyBytes l
  unsigned : ∀ k ∈ fields.map Prod.fst, k ≠ "signature".toList

theorem OrderTexts.keysSorted_fields (t : OrderTexts) (apiKey : String) (ts : Int) :
    KeysSorted (t.fields apiKey ts) := by
  unfold fields strField tsField
  constructor <;> cases hp : t.pStr <;> by_cases ht : t.tif = "" <;>
    simp only [ht, Option.elim_none, Option.elim_some, if_true, if_false, List.cons_append,
      List.nil_append, List.map_cons, List.map_nil] <;> decide

theorem keysSorted_cancelFields (apiKey sym cid : String) (ts : Int) :
    KeysSorted (cancelFields apiKey sym cid ts) := by
  unfold cancelFields strField tsField
  constructor <;> simp only [List.map_cons, List.map_nil] <;> decide

/-! ## Reading the requests back -/

theorem numberChar_plain {c : Char} (h : isNumberChar c = true) : c ≠ '"' ∧ c ≠ '\\' := by
  constructor <;> rintro rfl <;> exact absurd h (by decide)

theorem numberChar_toString_nat (n : Nat) : ∀ c ∈ (toString n).toList, isNumberChar c = true := by
  intro c hc
  rw [Nat.toString_eq_ofList_toDigits, String.toList_ofList] at hc
  rw [isNumberChar, DecimalText.isDigit_of_mem_toDigits hc, Bool.true_or]

theorem numberChar_toString_int (n : Int) : ∀ c ∈ (toString n).toList, isNumberChar c = true := by
  intro c hc
  rw [Int.toString_eq_repr, Int.repr_eq_if] at hc
  split at hc
  · exact numberChar_toString_nat _ c hc
  · rw [String.toList_append, List.mem_append] at hc
    rcases hc with hc | hc
    · rw [List.mem_singleton.mp hc]
      decide
    · exact numberChar_toString_nat _ c hc

theorem toString_int_ne_nil (n : Int) : (toString n).toList ≠ [] := by
  have hnat : ∀ m : Nat, m.repr.toList ≠ [] := by
    intro m
    rw [Nat.repr_eq_ofList_toDigits, String.toList_ofList]
    exact Nat.toDigits_ne_nil
  rw [Int.toString_eq_repr, Int.repr_eq_if]
  split
  · exact hnat _
  · rw [String.toList_append]
    exact List.append_ne_nil_of_right_ne_nil _ (hnat _)

theorem memberOk_strField {key v : String} (hkey : Plain key.toList) (hv : Plain v.toList) :
    MemberOk Scalar.read Scalar.text (strField key v) :=
  ⟨hkey, Scalar.readsBack_str hv⟩

theorem memberOk_tsField (ts : Int) : MemberOk Scalar.read Scalar.text (tsField ts) := by
  refine ⟨?_, Scalar.readsBack_num (toString_int_ne_nil ts) (numberChar_toString_int ts)⟩
  show Plain "timestamp".toList
  decide +kernel

/-- What is signed is what the exchange rebuilds from the message. -/
theorem covered_of_fields {sign : String → String} {msg payload method : String} {id : Nat}
    {fields : List (List Char × Scalar)}
    (hmsg : msg.toList = objectText Value.text (message id method fields (sign payload)))
    (hpayload : payload.toList = ['&'].intercalate (fields.map field))
    (hkeys : KeysSorted fields) (hok : ∀ m ∈ fields, MemberOk Scalar.read Scalar.text m)
    (hmethod : Plain method.toList) (hsign : Plain (sign payload).toList) :
    Covered sign msg payload := by
  have hname : Plain "id".toList ∧ Plain "method".toList ∧ Plain "params".toList ∧
      Plain "signature".toList := by decide +kernel
  have hfilter : (fields ++ [strField "signature" (sign payload)]).filter
      (fun m => decide (m.1 ≠ "signature".toList)) = fields := by
    rw [List.filter_append, List.filter_eq_self.mpr]
    · exact List.append_nil _
    · intro m hm
      exact decide_eq_true (hkeys.unsigned _ (List.mem_map_of_mem hm))
  have hsorted : fields.insertionSort ByKey = fields :=
    (List.pairwise_map.mp hkeys.sorted).insertionSort_eq
  have hnone : fields.lookup "signature".toList = none := by
    rw [List.lookup_eq_none_iff]
    intro m hm
    exact bne_iff_ne.mpr (hkeys.unsigned _ (List.mem_map_of_mem hm)).symm
  refine ⟨message id method fields (sign payload), fields ++ [strField "signature" (sign payload)],
    ?_, rfl, ?_, ?_⟩
  · rw [hmsg]
    refine readMessage_text fun m hm => ?_
    simp only [message, List.mem_cons, List.not_mem_nil, or_false] at hm
    rcases hm with rfl | rfl | rfl
    · exact ⟨hname.1, Value.readsBack_str fun c hc =>
        numberChar_plain (numberChar_toString_nat id c hc)⟩
    · exact ⟨hname.2.1, Value.readsBack_str hmethod⟩
    · refine ⟨hname.2.2.1, Value.readsBack_object ?_⟩
      intro m hm
      rcases List.mem_append.mp hm with h | h
      · exact hok m h
      · rw [List.mem_singleton.mp h]
        exact memberOk_strField hname.2.2.2 hsign
  · rw [signedText, hfilter, hsorted, hpayload]
  · rw [List.lookup_append, hnone]
    rfl

theorem plain_hmacSha256Hex (hmac : String → String → List UInt8) (secret msg : String) :
    Plain (hmacSha256Hex hmac secret msg).toList := by
  have hdigit : ∀ n < 16, Nat.digitChar n ≠ '"' ∧ Nat.digitChar n ≠ '\\' := by decide
  intro c hc
  rw [hmacSha256Hex, String.toList_ofList, List.mem_flatMap] at hc
  obtain ⟨b, -, hb⟩ := hc
  have hlt : b.toNat < 256 := b.toNat_lt
  rcases List.mem_pair.mp hb with rfl | rfl
  · exact hdigit _ (by omega)
  · exact hdigit _ (by omega)

/-- No text of the request has a quote or an escape. -/
structure OrderTexts.AllPlain (t : OrderTexts) : Prop where
  cid : Plain t.cid.toList
  sym : Plain t.sym.toList
  side : Plain t.side.toList
  type : Plain t.type.toList
  qStr : Plain t.qStr.toList
  pStr : ∀ pStr ∈ t.pStr, Plain pStr.toList
  tif : Plain t.tif.toList

theorem OrderTexts.memberOk_fields {t : OrderTexts} (ht : t.AllPlain) {apiKey : String}
    (hkey : Plain apiKey.toList) (ts : Int) :
    ∀ m ∈ t.fields apiKey ts, MemberOk Scalar.read Scalar.text m := by
  have hname : ∀ key ∈ ["apiKey", "newClientOrderId", "price", "quantity", "side", "symbol",
      "timeInForce", "type"], Plain key.toList := by decide +kernel
  simp only [List.forall_mem_cons, List.not_mem_nil, false_imp_iff, implies_true, and_true] at hname
  obtain ⟨hapi, hcid, hprice, hqty, hside, hsym, htif, htype⟩ := hname
  have hoptPrice : ∀ m ∈ (t.pStr.elim [] fun pStr => [strField "price" pStr]),
      MemberOk Scalar.read Scalar.text m := by
    intro m hm
    cases hp : t.pStr with
    | none =>
      rw [hp] at hm
      cases hm
    | some pStr =>
      rw [hp] at hm
      rw [List.mem_singleton.mp hm]
      exact memberOk_strField hprice (ht.pStr pStr hp)
  have hoptTif : ∀ m ∈ (if t.tif = "" then [] else [strField "timeInForce" t.tif]),
      MemberOk Scalar.read Scalar.text m := by
    intro m hm
    split at hm
    · cases hm
    · rw [List.mem_singleton.mp hm]
      exact memberOk_strField htif ht.tif
  unfold fields
  simp only [List.forall_mem_append, List.forall_mem_cons, List.not_mem_nil, false_imp_iff,
    implies_true, and_true]
  exact ⟨⟨⟨⟨⟨memberOk_strField hapi hkey, memberOk_strField hcid ht.cid⟩, hoptPrice⟩,
    memberOk_strField hqty ht.qStr, memberOk_strField hside ht.side,
    memberOk_strField hsym ht.sym⟩, hoptTif⟩, memberOk_tsField ts, memberOk_strField htype ht.type⟩

theorem memberOk_cancelFields {apiKey sym cid : String} (hkey : Plain apiKey.toList)
    (hsym : Plain sym.toList) (hcid : Plain cid.toList) (ts : Int) :
    ∀ m ∈ cancelFields apiKey sym cid ts, MemberOk Scalar.read Scalar.text m := by
  have hname : ∀ key ∈ ["apiKey", "origClientOrderId", "symbol"], Plain key.toList := by
    decide +kernel
  simp only [List.forall_mem_cons, List.not_mem_nil, false_imp_iff, implies_true, and_true] at hname
  unfold cancelFields
  simp only [List.forall_mem_cons, List.not_mem_nil, false_imp_iff, implies_true, and_true]
  exact ⟨memberOk_strField hname.1 hkey, memberOk_strField hname.2.1 hcid,
    memberOk_strField hname.2.2 hsym, memberOk_tsField ts⟩

section Requests

variable {K : Type*} [Field K] [LinearOrder K] [FloorSemiring K]

theorem plain_formatDecimal (v : K) (decimals : Nat) : Plain (formatDecimal v decimals).toList := by
  have hdigit : ∀ c : Char, c.isDigit = true → c ≠ '"' ∧ c ≠ '\\' := by
    intro c hc
    constructor <;> rintro rfl <;> exact absurd hc (by decide)
  intro c hc
  rw [formatDecimal, String.toList_ofList, DecimalText.fixedPoint, DecimalText.fixed,
    List.mem_append, List.mem_append] at hc
  rcases hc with hc | hc | hc
  · split at hc
    · rw [List.mem_singleton.mp hc]
      decide
    · cases hc
  · exact hdigit c (DecimalText.isDigit_of_mem_toDigits hc)
  · rcases DecimalText.mem_point hc with rfl | hc
    · decide
    · exact hdigit c (DecimalText.isDigit_of_mem_lastDigits hc)

theorem OrderRequest.allPlain_texts {o : OrderRequest K} (hcid : Plain o.cid.toList)
    (hsym : Plain o.sym.toList) (htype : Plain o.type.toList) (htif : Plain o.tif.toList) :
    o.texts.AllPlain where
  cid := hcid
  sym := hsym
  side := by
    show Plain o.sideText.toList
    unfold sideText
    cases o.side <;> decide +kernel
  type := htype
  qStr := plain_formatDecimal _ _
  pStr := by
    intro pStr hp
    unfold texts at hp
    by_cases hprice : 0 < o.price
    · simp only [if_pos hprice, Option.mem_def, Option.some.injEq] at hp
      exact hp ▸ plain_formatDecimal _ _
    · simp only [if_neg hprice] at hp
      cases hp
  tif := htif

/-- The signature covers what is sent: an order with any texts for its numbers,
an order as `build_order_msg` writes it, and a cancel. -/
theorem signature_covers (hmac : String → String → List UInt8) (secret apiKey : String)
    (hkey : Plain apiKey.toList) (ts : Int) (id : Nat) :
    let sign := hmacSha256Hex hmac secret
    (∀ t : OrderTexts, t.AllPlain → Covered sign (t.json sign apiKey ts id) (t.payload apiKey ts)) ∧
    (∀ o : OrderRequest K, Plain o.cid.toList → Plain o.sym.toList → Plain o.type.toList →
      Plain o.tif.toList →
      Covered sign (o.buildOrderMsg sign apiKey ts id) (o.payload apiKey ts)) ∧
    ∀ sym cid : String, Plain sym.toList → Plain cid.toList →
      Covered sign (cancelMsg sign apiKey sym cid ts id) (cancelPayload apiKey sym cid ts) := by
  intro sign
  have hsign : ∀ msg, Plain (sign msg).toList := plain_hmacSha256Hex hmac secret
  have horder : ∀ t : OrderTexts, t.AllPlain →
      Covered sign (t.json sign apiKey ts id) (t.payload apiKey ts) := fun t ht =>
    covered_of_fields (t.toList_json sign apiKey ts id) (t.toList_payload apiKey ts)
      (t.keysSorted_fields apiKey ts) (OrderTexts.memberOk_fields ht hkey ts)
      (by decide +kernel) (hsign _)
  refine ⟨horder, fun o hcid hsym htype htif => ?_, fun sym cid hsym hcid => ?_⟩
  · rw [← o.json_texts, ← o.payload_texts]
    exact horder _ (OrderRequest.allPlain_texts hcid hsym htype htif)
  · exact covered_of_fields (toList_cancelMsg sign apiKey sym cid ts id)
      (toList_cancelPayload apiKey sym cid ts) (keysSorted_cancelFields apiKey sym cid ts)
      (memberOk_cancelFields hkey hsym hcid ts) (by decide +kernel) (hsign _)

end Requests

/-- A limit order at 60000.1. -/
def limitOrder : OrderRequest ℚ :=
  BinanceGateway.limitPostOnly "holo-1" "BTCUSDT" .Buy (600001 / 10) (1 / 500)

/-- The digest of the payload of that order under the secret `s`. -/
def limitDigest (_ _ : String) : List UInt8 :=
  [247, 73, 141, 184, 85, 179, 75, 161, 15, 214, 222, 166, 166, 168, 0, 161,
    60, 185, 162, 63, 42, 233, 126, 249, 251, 79, 196, 83, 61, 151, 235, 78]

theorem signature_covers_limit :
    Covered (hmacSha256Hex limitDigest "s")
      (limitOrder.buildOrderMsg (hmacSha256Hex limitDigest "s") "k" 1700000000000 1)
      (limitOrder.payload "k" 1700000000000) :=
  (signature_covers limitDigest "s" "k" (by decide +kernel) 1700000000000 1).2.1 limitOrder
    (by decide +kernel) (by decide +kernel) (by decide +kernel) (by decide +kernel)

end HoloMarket
