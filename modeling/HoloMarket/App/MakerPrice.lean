import HoloMarket.App.RiskCheck

/-!
# MakerPrice: the price of a post-only order on the wire

`safe_maker_price` steps one tick away from a touch that carries the error of the
single-precision book, and `format_decimal` rounds the result to the decimals of the
symbol.  Together they give the grid price one tick behind the true touch.
-/

namespace HoloMarket

variable {K : Type} [Field K] [LinearOrder K]

/-- One tick of the symbol. -/
def tickOf (symbol : String) : K := 1 / ((10 : Nat) : K) ^ (precisionFor symbol).priceDecimals

/-- The price that the exchange reads, when the request has one. -/
def OrderRequest.wirePrice [FloorSemiring K] (o : OrderRequest K) : Option K :=
  if 0 < o.price then DecimalText.read o.priceText.toList else none

omit [LinearOrder K] in
theorem iterate_div_ten (d : Nat) (x : K) :
    (fun tick : K => tick / (10 : Nat))^[d] x = x / ((10 : Nat) : K) ^ d := by
  induction d generalizing x with
  | zero =>
    rw [Function.iterate_zero, id_eq, pow_zero, div_one]
  | succ d ih =>
    rw [Function.iterate_succ_apply, ih, div_div, pow_succ']

omit [LinearOrder K] in
theorem safeMakerPrice_eq (symbol : String) (isBuy : Bool) (touchPrice : K) :
    safeMakerPrice symbol isBuy touchPrice =
      if isBuy then touchPrice - tickOf symbol else touchPrice + tickOf symbol := by
  unfold safeMakerPrice tickOf
  rw [iterate_div_ten]

variable [IsStrictOrderedRing K]

theorem tickOf_pos (symbol : String) : (0 : K) < tickOf symbol := by
  unfold tickOf
  positivity

theorem mul_tickOf (symbol : String) (x : K) :
    x * tickOf symbol * 10 ^ (precisionFor symbol).priceDecimals = x := by
  unfold tickOf
  rw [Nat.cast_ofNat, mul_one_div, div_mul_cancel₀]
  positivity

variable [FloorSemiring K]

/-- A price less than half a tick from the grid is written as the grid price. -/
theorem formatDecimal_near (symbol : String) {m : Nat} {x : K} (hx : 0 ≤ x)
    (h : |x - m * tickOf symbol| < tickOf symbol / 2) :
    formatDecimal x (precisionFor symbol).priceDecimals =
      String.ofList (DecimalText.fixed (precisionFor symbol).priceDecimals m) := by
  have hpow : (0 : K) < 10 ^ (precisionFor symbol).priceDecimals := by positivity
  have hscaled : |x * 10 ^ (precisionFor symbol).priceDecimals - m| < 1 / 2 := by
    have hmul := mul_lt_mul_of_pos_right h hpow
    rw [← abs_of_pos hpow, ← abs_mul, abs_of_pos hpow, sub_mul, mul_tickOf] at hmul
    have hhalf : tickOf symbol / 2 * 10 ^ (precisionFor symbol).priceDecimals = (1 / 2 : K) := by
      have hone := mul_tickOf symbol (1 / 2 : K)
      rwa [one_div_mul_eq_div] at hone
    rwa [hhalf] at hmul
  unfold formatDecimal DecimalText.fixedPoint
  rw [if_neg hx.not_gt, List.nil_append, abs_of_nonneg hx, DecimalText.roundEven_near hscaled]

theorem read_formatDecimal_near (symbol : String) {m : Nat} {x : K} (hx : 0 ≤ x)
    (h : |x - m * tickOf symbol| < tickOf symbol / 2) :
    DecimalText.read (formatDecimal x (precisionFor symbol).priceDecimals).toList =
      some ((m : K) * tickOf symbol) := by
  rw [formatDecimal_near symbol hx h, String.toList_ofList, DecimalText.read_fixed]
  unfold tickOf
  rw [Nat.cast_ofNat, mul_one_div]

/-- The grid price one tick behind a touch of `n` ticks. -/
def ticksBehind (side : Side) (n : Nat) : Nat :=
  match side with
  | .Buy => n - 1
  | .Sell => n + 1

omit [IsStrictOrderedRing K] [FloorSemiring K] in
theorem safeMakerPrice_near (symbol : String) (side : Side) {n : Nat} (hn : 2 ≤ n) {touch : K}
    (h : |touch - n * tickOf symbol| < tickOf symbol / 2) :
    |safeMakerPrice symbol (side = .Buy) touch - ticksBehind side n * tickOf symbol| <
      tickOf symbol / 2 := by
  rw [safeMakerPrice_eq]
  cases side with
  | Buy =>
    have hcast : ((n - 1 : Nat) : K) = n - 1 := by
      rw [Nat.cast_sub (by omega), Nat.cast_one]
    have hsame : touch - tickOf symbol - (n - 1 : Nat) * tickOf symbol =
        touch - n * tickOf symbol := by
      rw [hcast]
      ring
    show |touch - tickOf symbol - (n - 1 : Nat) * tickOf symbol| < _
    rw [hsame]
    exact h
  | Sell =>
    have hsame : touch + tickOf symbol - (n + 1 : Nat) * tickOf symbol =
        touch - n * tickOf symbol := by
      push_cast
      ring
    show |touch + tickOf symbol - (n + 1 : Nat) * tickOf symbol| < _
    rw [hsame]
    exact h

omit [FloorSemiring K] in
theorem safeMakerPrice_near_pos (symbol : String) (side : Side) {n : Nat} (hn : 2 ≤ n) {touch : K}
    (h : |touch - n * tickOf symbol| < tickOf symbol / 2) :
    0 < safeMakerPrice symbol (side = .Buy) touch := by
  have hbehind : 1 ≤ ticksBehind side n := by
    cases side
    · show 1 ≤ n - 1
      omega
    · show 1 ≤ n + 1
      omega
  have htick := tickOf_pos (K := K) symbol
  have hone : tickOf symbol ≤ (ticksBehind side n : K) * tickOf symbol :=
    le_mul_of_one_le_left htick.le (by exact_mod_cast hbehind)
  have hnear := (abs_lt.mp (safeMakerPrice_near symbol side hn h)).1
  linarith

/-- From a touch less than half a tick off a best price `b` of the grid, the price on the
wire is one tick behind `b`, and so on the passive side of the touch. -/
theorem makerPrice_oneTick (symbol : String) (side : Side) {n : Nat} (hn : 2 ≤ n) {b touch : K}
    (hb : b = n * tickOf symbol) (htouch : |touch - b| < tickOf symbol / 2) (cid : String)
    (qty : K) :
    (BinanceGateway.limitPostOnly cid symbol side (safeMakerPrice symbol (side = .Buy) touch)
        qty).wirePrice = some (if side = .Buy then b - tickOf symbol else b + tickOf symbol) ∧
      (side = .Buy → b - tickOf symbol < touch) ∧ (side = .Sell → touch < b + tickOf symbol) := by
  rw [hb] at htouch
  obtain ⟨hlo, hhi⟩ := abs_lt.mp htouch
  have htick := tickOf_pos (K := K) symbol
  have hprice := safeMakerPrice_near_pos symbol side hn htouch
  have hread := read_formatDecimal_near symbol hprice.le (safeMakerPrice_near symbol side hn htouch)
  refine ⟨?_, fun _ => by linarith, fun _ => by linarith⟩
  refine (if_pos hprice).trans (hread.trans ?_)
  cases side with
  | Buy =>
    rw [if_pos rfl, hb]
    show some (((n - 1 : Nat) : K) * tickOf symbol) = _
    rw [Nat.cast_sub (by omega), Nat.cast_one, sub_one_mul]
  | Sell =>
    rw [if_neg (by decide), hb]
    show some (((n + 1 : Nat) : K) * tickOf symbol) = _
    rw [Nat.cast_add, Nat.cast_one, add_one_mul]

/-- A bid of 50000.1, seen as 50000.13. -/
theorem makerPrice_bid :
    (BinanceGateway.limitPostOnly "HM0" "BTCUSDT" .Buy
        (safeMakerPrice "BTCUSDT" true (5000013 / 100 : ℚ)) 1).wirePrice = some 50000 :=
  (makerPrice_oneTick "BTCUSDT" .Buy (n := 500001) (by decide) (b := 500001 / 10)
    (by decide +kernel) (by decide +kernel) "HM0" 1).1.trans (by decide +kernel)

end HoloMarket
