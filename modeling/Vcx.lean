import Vcx.Types.Microsoft.Bounds
import Vcx.Types.BitField
import Vcx.Mangle.Number
import Vcx.Types.LayoutSound
import Vcx.Lower.RoundTrip
import Vcx.Lower.LifetimesSound
import Vcx.Lower.CatchesSound
import Vcx.Preprocessor.Eval
import Vcx.Constexpr.ArithSound
import Vcx.Sema.Ranking
import Vcx.Preprocessor.Nesting
import Vcx.Preprocessor.Cache
import Vcx.Preprocessor.Detection
import Vcx.Lib.Utf8
import Vcx.Literal.Decode
import Vcx.Literal.Concat
import Vcx.Scanner.Lossless
import Vcx.Scanner.Modes
import Vcx.Scanner.RawString
import Vcx.Template.Adjusts
import Vcx.Lower.IntExprSound
import Vcx.Lower.HeapSound
import Vcx.Lower.ArrayNew
import Vcx.Lower.CompoundShapes
import Vcx.Lower.PointerConvert
import Vcx.Lower.ComparisonSound
import Vcx.Lower.StructorsSound
import Vcx.Sema.CapturesSound
import Vcx.Sema.ListInitSound
import Vcx.Lower.RecordTypeSound
import Vcx.Template.DependentSound
import Vcx.Template.Decay
import Vcx.Lower.StaticLocal
import Vcx.Lower.Virtual
import Vcx.Lower.SwitchSound
import Vcx.Sema.PacksSound
import Vcx.Sema.FoldSound
import Vcx.Parser.ExprSound
import Vcx.Parser.PackPattern
import Vcx.Sema.Jumps
import Vcx.Preprocessor.Refused
import Vcx.Preprocessor.DefineSound
import Vcx.Sema.IntLiteralSound
import Vcx.Sema.ConditionalSound
import Vcx.Sema.Qualifiers
import Vcx.Preprocessor.LineSound
import Vcx.Preprocessor.StringizeSound
import Vcx.Preprocessor.ControllingSound
import Vcx.Preprocessor.ConstantsSound
import Vcx.Constexpr.Literal
import Vcx.Constexpr.Evaluator
import Vcx.Constexpr.Memory
import Vcx.Constexpr.MemorySound
import Vcx.Constexpr.Pointers
import Vcx.Constexpr.Lifetimes
import Vcx.Constexpr.Calls
import Vcx.Constexpr.Runs
