import Searpc.ByteMemoryProofs
import Searpc.FramingProofs
import Searpc.JsonValueProofs
import Searpc.JsonTextProofs
import Searpc.Utf8Proofs
import Searpc.JanssonProofs
import Searpc.PyJsonProofs
import Searpc.PyTransportProofs
import Searpc.PyPoolProofs
import Searpc.PipeIoProofs
import Searpc.RequestProofs
import Searpc.ThreadServerProofs
import Searpc.PipeClientProofs
import Searpc.SessionProofs
import Searpc.FcallProofs
import Searpc.GObjectProofs
import Searpc.GObjectTransferProofs
import Searpc.GObjectMembersProofs
import Searpc.ReplyProofs
import Searpc.ReplyLossProofs
import Searpc.PyDecodeProofs
import Searpc.CodegenProofs
import Searpc.ServerProofs
import Searpc.RegistryProofs
import Searpc.RegistryCellsProofs
import Searpc.RegistryOriginProofs
import Searpc.SlowLogProofs
import Searpc.SignatureProofs
import Searpc.DispatchErrorProofs
import Searpc.ClientProofs
import Searpc.EpollProofs
import Searpc.EpollFramesProofs
import Searpc.EpollServeProofs
import Searpc.EpollModesProofs
import Searpc.ReplyFramesProofs
import Searpc.PyClientProofs
import Searpc.PyServerProofs
import Searpc.PySessionProofs
import Searpc.AsyncProofs
import Searpc.OutcomeLoopProofs
import Searpc.PipeTransferProofs
import Searpc.ByteNetworkProofs
import Searpc.ByteSessionProofs
import Searpc.LinearizableProofs
import Searpc.RelayProofs
import Searpc.SharedServerProofs
import Searpc.PooledServerProofs
import Searpc.ConcurrentServerProofs
import Searpc.DirectRunsProofs
import Searpc.PipeEndsProofs
import Searpc.PyEndsProofs
import Searpc.MixedClientsProofs
import Searpc.TypedProgramsProofs
import Searpc.EndToEndProofs
import Searpc.PoolModeProofs
import Searpc.EpollPoolProofs
import Searpc.ThreadsProofs
import Searpc.LogRotationProofs
