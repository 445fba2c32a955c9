import Huasi.Runs
import Huasi.FifoLog
import Huasi.Cyclic
import Huasi.Stream
import Huasi.WritePort
import Huasi.ZWaveTx
import Huasi.ZWaveProtocol
import Huasi.ZWaveRequests
import Huasi.ZWaveDiscovery
import Huasi.ZWaveSteps
import Huasi.ZWaveMoves
import Huasi.ZWaveQueue
import Huasi.ZWaveProgress
import Huasi.ZWaveTimeout
import Huasi.ZWaveRetries
import Huasi.ZWaveReceiver
import Huasi.ZWaveMessages
import Huasi.ZWaveCodec
import Huasi.ZWaveFuncId
import Huasi.ZWaveDispatch
import Huasi.ZWaveLine
import Huasi.ReceiveBuffer
import Huasi.Crc
import Huasi.EnOceanTx
import Huasi.EnOceanProtocol
import Huasi.EnOceanPackets
import Huasi.EnOceanSteps
import Huasi.EnOceanProgress
import Huasi.EnOceanReceiver
import Huasi.EnOceanChecksum
import Huasi.EnOceanStream
import Huasi.Object
import Huasi.Ptr
import Huasi.Channel
import Huasi.ChannelOutput
import Huasi.SortedMap
import Huasi.Text
import Huasi.HttpChannel
import Huasi.Decimal
import Huasi.Cast
import Huasi.Parameters
import Huasi.Numerals
import Huasi.Query
import Huasi.QueryLoop
import Huasi.ZWaveNetwork
import Huasi.Levels
import Huasi.ZWaveNodes
import Huasi.ZWaveCommands
import Huasi.ZWaveGet
import Huasi.ZWaveReports
import Huasi.Gateway
import Huasi.GatewayEcho
import Huasi.HttpFraming
import Huasi.GatewayFraming
import Huasi.Reading
import Huasi.ZWaveReads
import Huasi.ZWaveConfig
import Huasi.ZWaveIsolation
import Huasi.ZWaveRepeated
import Huasi.HttpErrors
import Huasi.Server
import Huasi.Url
import Huasi.ZWaveMemory
import Huasi.HttpParser
import Huasi.HttpExecute
import Huasi.HttpCalls
import Huasi.HttpInput
import Huasi.HttpParserBodies
import Huasi.HttpReads
import Huasi.HttpBodies
import Huasi.HttpRequests
import Huasi.GatewayConnection
import Huasi.GatewayHub
import Huasi.ZWaveApplication
import Huasi.Program
import Huasi.EnOceanQueue
import Huasi.EnOceanRetries
import Huasi.EnOceanAnswers
import Huasi.EnOceanPieces
