import VolarIR.Boolar.Eval
import VolarIR.Circuit.Unroll
import VolarIR.Common.PolyCoeffsRuns
import VolarIR.Field.FieldLaws
import VolarIR.Field.SolinasSound
import VolarIR.Field.SymbolSound
import VolarIR.Interop.BristolRoundTrip
import VolarIR.Interop.BristolRuns
import VolarIR.Ir.CseRuns
import VolarIR.Movfuscate.BoolarRuns
import VolarIR.Movfuscate.TypedRuns
import VolarIR.Ir.DceRuns
import VolarIR.Ir.HoistRegions
import VolarIR.Ir.ReadonlyFoldRuns
import VolarIR.Opt.CseRuns
import VolarIR.Opt.DceRuns
import VolarIR.Opt.FoldRuns
import VolarIR.Opt.StoreForwardRuns
import VolarIR.Reversible.Harden
import VolarIR.Reversible.FailClosed
import VolarIR.Reversible.Pipeline
import VolarIR.Reversible.RoundTrip
import VolarIR.Schedule.Encoding
import VolarIR.Schedule.EpochRaces
import VolarIR.Schedule.Extraction
import VolarIR.Schedule.FailClosed
import VolarIR.Schedule.PlannedRuns
import VolarIR.Schedule.Serializable
import VolarIR.Storage.RegisterRuns
import VolarIR.Vaffle.HelperSound
import VolarIR.Vaffle.FieldOpsExact
import VolarIR.Opt.PrimeFold
import VolarIR.Lowering.PreInit
import VolarIR.Lowering.RegionExact
import VolarIR.Lir.CircuitsExact
import VolarIR.Text.ParserSound
import VolarIR.Schedule.Acceptance
import VolarIR.Opt.KnownBits
import VolarIR.Opt.IrStoreForward
import VolarIR.Opt.Disambiguation
