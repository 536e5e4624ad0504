import SocketPrograms.Lib.CharArray
import SocketPrograms.Lib.Stdio
import SocketPrograms.Lib.Pair
import SocketPrograms.CommandReply
import SocketPrograms.HW2.EchoServer
import SocketPrograms.HW4.DateServer
import SocketPrograms.LineClient
import SocketPrograms.ReplyFidelity
import SocketPrograms.HW2.RemoteCommand
import SocketPrograms.HW2.ReplyBacklog
import SocketPrograms.HW1.EchoPair
import SocketPrograms.Project1.Client2
import SocketPrograms.Project1.Retrieval
import SocketPrograms.HW4.Network
import SocketPrograms.Chat.TCPServer
import SocketPrograms.HW4.Pairing
import SocketPrograms.Chat.WatchSet
import SocketPrograms.Chat.Completion
import SocketPrograms.Chat.Broadcast
import SocketPrograms.Chat.Forgotten
import SocketPrograms.Chat.TCPClient
import SocketPrograms.Chat.Forwarding
import SocketPrograms.HW2.Descriptors
import SocketPrograms.HW3.Messaging
import SocketPrograms.ReceivedText
import SocketPrograms.Chat.UDPChatClient
import SocketPrograms.Project1.Terminated
import SocketPrograms.Chat.MessageLaw
import SocketPrograms.Chat.ClientWatch
import SocketPrograms.ReplyCapacity
import SocketPrograms.Project1.FirstReply
import SocketPrograms.Project1.Child
import SocketPrograms.Lib.Decimal
import SocketPrograms.PacketLoss.Flood
import SocketPrograms.PacketLoss.Report
import SocketPrograms.Lib.Lines
import SocketPrograms.Lib.Loop
import SocketPrograms.ClosingWord
import SocketPrograms.EndOfInput
import SocketPrograms.LineExit
import SocketPrograms.Chat.ClosingInput
import SocketPrograms.Chat.FailedSelect
import SocketPrograms.Chat.Indices
import SocketPrograms.Lib.Fork
import SocketPrograms.Project1.ForkServer
import SocketPrograms.Chat.ServerExample
import SocketPrograms.Unp.TcpServSelect
import SocketPrograms.Lib.Multiplexer
import SocketPrograms.Unp.Readline
import SocketPrograms.Unp.StrCli
import SocketPrograms.Unp.DgSendRecv
import SocketPrograms.Lib.LinearBuffer
import SocketPrograms.Unp.StrCliNonb
import SocketPrograms.Lib.Ring
import SocketPrograms.Lib.Numeral
import SocketPrograms.Unp.NonblEcho
import SocketPrograms.Unp.Serv08
import SocketPrograms.Unp.InetPton
import SocketPrograms.Unp.InetNtop
import SocketPrograms.Unp.InetRoundTrip
import SocketPrograms.Chat.UDPChatNetwork
import SocketPrograms.Lib.WorkerPool
import SocketPrograms.Unp.Serv05
import SocketPrograms.Lib.EndAroundCarry
import SocketPrograms.Unp.InCksum
import SocketPrograms.Unp.SigChld
import SocketPrograms.Unp.Web
